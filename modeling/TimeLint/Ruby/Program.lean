import TimeLint.Ruby.Expression

/-!
Statements and programs. `parse` reads a whole source: comments and heredoc bodies take the places
where they stand, and a source that cannot be read becomes a tree with an `ERROR` node. That node
starts at the statement that holds the offending text, or, if the source ends too early, at the
outermost statement left open.
-/

namespace TimeLint.Ruby

/-- One target of a multiple assignment. -/
def target (g : Grammar) : Read Node := do
  if ← sees '*' then
    let star ← token "*"
    match ← attempt (g.primary .target) with
    | some n => return branch "rest_assignment" [star, n]
    | none => return branch "rest_assignment" [star]
  if ← sees '(' then
    let opening ← token "("
    return branch "destructured_left_assignment" (opening :: (← items ")" g.target))
  let n ← g.primary .target
  if isTarget n then return n else stuck

/-- Targets between commas, the last comma possibly without a target behind it. -/
def targets (g : Grammar) : Read (List Node) := do
  let first ← target g
  iterate [first] fun acc => do
    skipInline
    if !(← sees ',') then return .inr acc
    let comma ← token ","
    skipAll
    if ← seesEquals then return .inr (acc ++ [comma])
    return .inl (acc ++ [comma, ← target g])

/-- The line at hand may be an assignment to several targets. -/
def mayAssignMany : Read Bool := do
  if ← sees '*' then return true
  let i ← place
  let line := ((← read).source.extract i (← lineEnd i)).data.toList
  let goesOn := (line.reverse.dropWhile isBlank).head? == some 44
  return goesOn || (line.dropWhile (· != 44)).contains 61

def multipleAssignment (g : Grammar) : Read Node := do
  let left ← targets g
  let several := match left with
    | [n] => n.kind == "rest_assignment" || n.kind == "destructured_left_assignment"
    | _ => true
  if !several || !(← seesEquals) || (← seesAt 1 '>') then stuck
  let sign ← token "="
  skipAll
  let right ← assigned g .statement
  return branch "assignment"
    [(branch "left_assignment_list" left).inField "left", sign, right.inField "right"]

def statementBase (g : Grammar) : Read Node := do
  match ← word with
  | "alias" => aliasStatement g
  | "undef" => undefStatement g
  | "BEGIN" => edgeBlock g "BEGIN" "begin_block"
  | "END" => edgeBlock g "END" "end_block"
  | _ =>
    if ← mayAssignMany then
      if let some n ← attempt (multipleAssignment g) then return n
    g.expression .statement

/-- The words that may follow a statement, with the kind they make of it and the field of what they
bring. -/
def modifiers : List (String × String × String) :=
  [("if", "if_modifier", "condition"), ("unless", "unless_modifier", "condition"),
   ("while", "while_modifier", "condition"), ("until", "until_modifier", "condition"),
   ("rescue", "rescue_modifier", "handler")]

def modified (g : Grammar) : Read Node := do
  let base ← statementBase g
  iterate base fun n => do
    let s ← get
    skipInline
    match modifiers.lookup (← word) with
    | some (kind, field) =>
      let head ← token (← word)
      skipAll
      let more ← g.expression .statement
      return .inl (branch kind [n.inField "body", head, more.inField field])
    | none =>
      set s
      return .inr n

/-- A statement; being stuck in it is being stuck in a statement that starts here. -/
def statement (g : Grammar) : Read Node := do
  let start ← place
  try modified g
  catch e => throw { e with inner := some (e.inner.getD start), outer := some start }

/-- The line that ends the program before the end of the source. -/
def seesDataLine : Read Bool := do
  if !(← atColumnZero) || !(← seesText "__END__") then return false
  let b ← peekAt 7
  return isNewline b || b == 13

def atClose : Read Bool := do
  if ← atEnd then return true
  if (← sees ')') || (← sees '\x7d') || (← sees ']') then return true
  if ← seesDataLine then return true
  return closing.contains (← word) && !(← seesLabel)

def statements (g : Grammar) : Read (List Node) :=
  iterate ([] : List Node) fun acc => do
    skipTerminators
    if ← atClose then return .inr acc
    let n ← statement g
    let s ← get
    skipInline
    if (← atTerminator) || (← atClose) then
      set s
      return .inl (acc ++ [n])
    throw ⟨← place, some n.start.toNat, some n.start.toNat⟩

/-- The rules, each with `g` behind it. -/
def deepen (g : Grammar) : Grammar :=
  { statements := statements g
    expression := expression g
    value := value g
    primary := primary g
    target := target g
    pattern := pattern g
    parameter := parameter g }

/-- The rules nested to a given depth. -/
def nested (depth : Nat) : Grammar := Nat.repeat deepen depth .empty

def encloses (outer inner : Extent) : Bool := outer.start < inner.start && inner.stop ≤ outer.stop

mutual

/-- Puts a comment or heredoc body into the innermost node around it. -/
def insertInto (extra : Node) : Node → Node
  | ⟨kind, extent, named, missing, broken, field, cs⟩ =>
    ⟨kind, extent, named, missing, broken, field, insertAmong extra cs⟩

def insertAmong (extra : Node) : List Node → List Node
  | [] => [extra]
  | c :: cs =>
    if encloses c.extent extra.extent && !c.children.isEmpty then insertInto extra c :: cs
    else if extra.start < c.start then extra :: c :: cs
    else c :: insertAmong extra cs

end

def beforeExtra (a b : Node) : Bool := a.start < b.start || (a.start == b.start && b.stop ≤ a.stop)

def withExtras (extras : List Node) (root : Node) : Node :=
  (extras.mergeSort beforeExtra).foldl (fun n e => insertInto e n) root

/-- Row and column of every offset, the end included. -/
def pointsOf (source : Bytes) : Array Point :=
  (source.foldl (fun ((ps : Array Point), (p : Point)) b =>
    let q : Point := if isNewline b then ⟨p.row + 1, 0⟩ else ⟨p.row, p.column + 1⟩
    (ps.push q, q)) (#[⟨0, 0⟩], ⟨0, 0⟩)).1

def skipMark : Read Unit := do if ← seesText "\ufeff" then advance 3

/-- All statements up to the end of the program. -/
def programBody (g : Grammar) : Read (List Node) := do
  skipMark
  let body ← g.statements
  if (← atEnd) || (← seesDataLine) then return body
  let i ← place
  throw ⟨i, some i, some i⟩

/-- Nothing but blanks is left from `i` on. -/
def exhausted (source : Bytes) (i : Nat) : Bool :=
  (source.drop i).all fun b => isBlank b || isNewline b || b == 59

def parse (source : Bytes) : Node :=
  let scene : Scene := ⟨⟨source.toArray⟩, pointsOf source⟩
  let size := source.length
  let point (i : Nat) : Point := scene.points[i]?.getD default
  let spanning (kind : String) (start : Nat) (broken : Bool) (children : List Node) : Node :=
    { kind, extent := ⟨start, size, point start, point size⟩, named := true, missing := false
      broken, field := none, children }
  match ((programBody (nested (4 * size + 32))).run scene).run ⟨0, [], none⟩ with
  | .ok (body, state) => withExtras state.extras (spanning "program" 0 false body)
  | .error e =>
    let start := if exhausted source e.place then e.outer.getD 0 else e.inner.getD e.place
    spanning "program" 0 true [spanning "ERROR" start true []]

end TimeLint.Ruby
