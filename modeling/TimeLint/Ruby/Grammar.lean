import TimeLint.Ruby.Word

/-!
The rules of the grammar call each other. A rule takes the grammar's entry points as an argument and
is not recursive itself; `Program` closes the circle. A `Mode` says what the place allows.
-/

namespace TimeLint.Ruby

/-- What an expression may hold where it stands. -/
structure Mode where
  /-- A call may have arguments without parentheses. -/
  commands : Bool
  /-- `do` opens a block, and not the body of a loop. -/
  doBlocks : Bool
  /-- Braces open a block. -/
  braces : Bool
  /-- A bar is an operator, and not the end of parameters. -/
  bars : Bool
  /-- A whole statement may stand here: lists of values, patterns. -/
  whole : Bool

namespace Mode

/-- A statement of its own. -/
def statement : Mode := ⟨true, true, true, true, true⟩

/-- An item between delimiters. -/
def item : Mode := ⟨true, true, true, true, false⟩

/-- An operand, which takes no arguments without parentheses. -/
def operand (m : Mode) : Mode := { m with commands := false, whole := false }

/-- An argument of a call without parentheses: a `do` belongs to that call. -/
def bareArgument (m : Mode) : Mode := { m with commands := true, doBlocks := false, whole := false }

/-- The condition of a loop. -/
def condition : Mode := ⟨true, false, true, true, true⟩

/-- The target of an assignment, up to its last name. -/
def target : Mode := ⟨false, false, false, true, false⟩

end Mode

/-- The entry points into the grammar. -/
structure Grammar where
  /-- Statements up to a closing word or delimiter. -/
  statements : Read (List Node)
  /-- An expression with `and`, `or` and `not`. -/
  expression : Mode → Read Node
  /-- An expression without these. -/
  value : Mode → Read Node
  /-- An operand with all that follows it: calls, indices, scopes. -/
  primary : Mode → Read Node
  /-- One target of a multiple assignment. -/
  target : Read Node
  pattern : Read Node
  parameter : Mode → Read Node

/-- Nothing can be read. -/
def Grammar.empty : Grammar :=
  ⟨stuck, fun _ => stuck, fun _ => stuck, fun _ => stuck, stuck, stuck, fun _ => stuck⟩

/-- Items between commas up to `close`, which is taken too; newlines count as blanks. -/
def items (close : String) (item : Read Node) : Read (List Node) := do
  iterate ([] : List Node) fun acc => do
    skipAll
    if ← seesText close then return .inr (acc ++ [← token close])
    let n ← item
    skipAll
    if ← sees ',' then return .inl (acc ++ [n, ← token ","])
    return .inr (acc ++ [n, ← token close])

/-- One item or more between commas; only a comma lets them go on in the next line. -/
def commaList (item : Read Node) : Read (List Node) := do
  let first ← item
  iterate [first] fun acc => do
    let s ← get
    skipInline
    if ← sees ',' then
      let comma ← token ","
      skipAll
      return .inl (acc ++ [comma, ← item])
    set s
    return .inr acc

/-- The end of a statement's head: `then` or the end of a line. -/
def headEnd : Read (List Node) := do
  skipInline
  let ended ← atTerminator
  if ended then skipTerminators
  if ← seesWord "then" then return [← token "then"]
  if ended then return [] else stuck

/-- `kind` over `children` with the comments between them left to their places. -/
def optionalBranch (kind : String) (children : List Node) : List Node :=
  if children.isEmpty then [] else [branch kind children]

end TimeLint.Ruby
