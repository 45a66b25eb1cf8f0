import TimeLint.Ruby.Control

/-!
Expressions: operands with the calls, indices and scopes behind them, assignments, operators.
-/

namespace TimeLint.Ruby

def lacks (field : String) (n : Node) : Bool := (n.child? field).isNone

def isName (n : Node) : Bool := n.kind == "identifier" || n.kind == "constant" || n.kind == "super"

/-- A call that has a method and neither arguments nor a block yet. -/
def isOpenCall (n : Node) : Bool :=
  n.kind == "call" && !lacks "method" n && lacks "arguments" n && lacks "block" n

def isScoped (n : Node) : Bool := n.kind == "scope_resolution" && !lacks "scope" n

def takesArguments (n : Node) : Bool := isName n || isOpenCall n || isScoped n

def takesBlock (n : Node) : Bool := isName n || isScoped n || (n.kind == "call" && lacks "block" n)

/-- The node as the start of a call: a name is its method, a scope its receiver. -/
def callParts (n : Node) : List Node :=
  if n.kind == "call" then n.children
  else if isScoped n then
    n.children.map fun c =>
      if c.hasField "scope" then c.inField "receiver"
      else if c.hasField "name" then c.inField "method"
      else c.inField "operator"
  else [n.inField "method"]

def extendCall (n part : Node) (field : String) : Node :=
  branch "call" (callParts n ++ [part.inField field])

/-- Something can be assigned to the node. -/
def isTarget (n : Node) : Bool :=
  ["identifier", "constant", "instance_variable", "class_variable", "global_variable",
   "scope_resolution", "element_reference"].contains n.kind || (isOpenCall n && !lacks "receiver" n)

def parentheses (g : Grammar) : Read Node := do
  let opening ← token "("
  let body ← g.statements
  skipTerminators
  return branch "parenthesized_statements" (opening :: body ++ [← token ")"])

/-- A word of the language that stands for a value. -/
def wordLeaf (w : String) : Read Node := do
  let start ← place
  advance w.utf8ByteSize
  leaf w start

def wordOperand (g : Grammar) (mode : Mode) : Read Node := do
  let w ← word
  let i ← place
  if (← isSuffixAt (i + w.utf8ByteSize)) && w != "" then return ← name
  match w with
  | "begin" => beginBlock g
  | "if" => conditional g "if"
  | "unless" => conditional g "unless"
  | "while" => loop g "while"
  | "until" => loop g "until"
  | "case" => caseSwitch g
  | "for" => forLoop g
  | "def" => method g
  | "class" => classDefinition g
  | "module" => moduleDefinition g
  | "return" => jump g mode "return"
  | "break" => jump g mode "break"
  | "next" => jump g mode "next"
  | "yield" => jump g mode "yield"
  | "redo" => wordLeaf w
  | "retry" => wordLeaf w
  | "self" => wordLeaf w
  | "nil" => wordLeaf w
  | "true" => wordLeaf w
  | "false" => wordLeaf w
  | "super" => wordLeaf w
  | _ => if reserved.contains w then stuck else name

/-- An operand without what may follow it. -/
def operandBase (g : Grammar) (mode : Mode) : Read Node := do
  let b ← peek
  if isByte b '(' then parentheses g
  else if isByte b '[' then array g
  else if isByte b '\x7b' then hash g
  else if ← seesQuote then string g
  else if isByte b '`' then fenced g "subshell" "`" 1 ⟨none, b, true⟩
  else if isByte b ':' then
    if ← seesAt 1 ':' then
      let op ← token "::"
      skipAll
      return branch "scope_resolution" [op, (← constant).inField "name"]
    symbol g
  else if isByte b '%' then percent g
  else if isByte b '<' then heredoc g
  else if isByte b '/' then regexOf g 1 ⟨none, b, true⟩
  else if isByte b '?' then if ← seesCharacter then character else stuck
  else if isByte b '-' then if ← seesAt 1 '>' then lambda g else stuck
  else if isByte b '@' || isByte b '$' then sigilVariable
  else if isDigit b then number
  else wordOperand g mode

/-- The method behind a call operator, and its arguments if they are in parentheses. -/
def send (g : Grammar) (receiver op : Node) : Read Node := do
  skipAll
  let head := [receiver.inField "receiver", op.inField "operator"]
  if ← sees '(' then return branch "call" (head ++ [(← argumentList g).inField "arguments"])
  let method ← match ← attempt name with
    | some n => pure n
    | none => operatorName
  return branch "call" (head ++ [method.inField "method"])

/-- What follows `::` right behind `scope`: a constant in it, or a call on it. -/
def inScope (g : Grammar) (scope : Node) : Read Node := do
  let op ← token "::"
  skipAll
  let start ← place
  let plain := isUpper (← peek) && (← wordEnd start) == (← nameEnd start)
  if plain then
    let n ← constant
    if !(← sees '(') then
      return branch "scope_resolution" [scope.inField "scope", op, n.inField "name"]
    moveTo start
  send g scope op

def elementReference (g : Grammar) (object : Node) : Read Node := do
  let opening ← token "["
  return branch "element_reference"
    (object.inField "object" :: opening :: (← items "]" (argument g .item)))

/-- A block behind a call, where the place allows one. -/
def block? (g : Grammar) (mode : Mode) : Read (Option Node) := do
  if mode.braces && (← sees '\x7b') then return some (← braceBlock g)
  if mode.doBlocks && (← seesWord "do") then return some (← doBlock g)
  return none

/-- What stands right behind the operand, without a blank. -/
def adjacent? (g : Grammar) (n : Node) : Read (Option Node) := do
  if (← sees '(') && takesArguments n then
    return some (extendCall n (← argumentList g) "arguments")
  if ← sees '[' then return some (← elementReference g n)
  if ← seesText "::" then return some (← inScope g n)
  return none

/-- A call with arguments without parentheses, and whether a block ended it. -/
def command (g : Grammar) (mode : Mode) (n : Node) : Read (Node × Bool) := do
  let call := extendCall n (← bareArguments g mode.bareArgument) "arguments"
  let s ← get
  skipInline
  match ← block? g mode with
  | some b => return (extendCall call b "block", true)
  | none =>
    set s
    return (call, false)

/-- An operand with the calls, indices and scopes behind it. -/
def primary (g : Grammar) (mode : Mode) : Read Node := do
  let base ← operandBase g mode
  iterate base fun n => do
    if let some m ← adjacent? g n then return .inl m
    let s ← get
    skipInline
    let spaced := s.pos != (← place)
    if (← sees '.') && !(← seesAt 1 '.') then return .inl (← send g n (← token "."))
    if ← seesText "&." then return .inl (← send g n (← token "&."))
    if takesBlock n then
      if let some b ← block? g mode then return .inl (extendCall n b "block")
    if mode.commands && takesArguments n && (← seesArgument spaced) then
      let (call, closed) ← command g mode n
      return if closed then .inl call else .inr call
    if (← sees '[') && spaced && mode.braces && !isNewline (← peek) then
      return .inl (← elementReference g n)
    set s
    return .inr n

/-- Values behind an assignment sign. -/
def assigned (g : Grammar) (mode : Mode) : Read Node := do
  let single := { mode with whole := false }
  let one : Read Node := do
    if ← sees '*' then marked g single.operand "splat_argument" "*" else g.value single
  if !mode.whole then return ← one
  match ← commaList one with
  | [n] => return n
  | ns => return branch "right_assignment_list" ns

def assignmentOperators : List String :=
  ["**=", "||=", "&&=", "<<=", ">>=", "+=", "-=", "*=", "/=", "%=", "|=", "&=", "^="]

/-- An operand, or the assignment to it. -/
def operand (g : Grammar) (mode : Mode) : Read Node := do
  if let some dots ← firstSeen ["...", ".."] then
    let op ← token dots
    skipInline
    return branch "range" [op, (← g.primary mode.operand).inField "end"]
  let n ← primary g mode
  if !isTarget n then return n
  let s ← get
  skipInline
  if (← seesEquals) && !(← seesAt 1 '>') then
    let sign ← token "="
    skipAll
    let right ← assigned g mode
    return branch "assignment" [n.inField "left", sign, right.inField "right"]
  match ← firstSeen assignmentOperators with
  | some op =>
    let sign ← token op
    skipAll
    let right ← assigned g mode
    return branch "operator_assignment"
      [n.inField "left", sign.inField "operator", right.inField "right"]
  | none =>
    set s
    return n

/-- The operators before an operand. -/
def leadingOperators : Read (List Node) :=
  iterate ([] : List Node) fun acc => do
    let c ← peekAt 1
    let op ← do
      if ← sees '!' then pure (if isByte c '=' || isByte c '~' then none else some "!")
      else if ← sees '-' then pure (if isByte c '>' || isByte c '=' then none else some "-")
      else if ← sees '+' then pure (some "+")
      else if ← sees '~' then pure (some "~")
      else if (← seesText "defined?") && (← seesWord "defined") then pure (some "defined?")
      else if (← seesWord "not") && !(← seesLabel) then pure (some "not")
      else pure none
    match op with
    | none => return .inr acc
    | some t =>
      let n ← token t
      skipAll
      return .inl (acc ++ [n])

def unary (g : Grammar) (mode : Mode) : Read Node := do
  let ops ← leadingOperators
  let n ← operand g mode
  return ops.foldr (fun op n => branch "unary" [op.inField "operator", n.inField "operand"]) n

/-- An operator between two operands: how tightly it binds, and whether to the right. -/
structure Operator where
  text : String
  level : Nat
  toRight : Bool
deriving Inhabited

/-- Of two operators that fit, the longer comes first. -/
def operators : List Operator :=
  [⟨"**", 10, true⟩, ⟨"<=>", 4, false⟩, ⟨"===", 4, false⟩, ⟨"==", 4, false⟩, ⟨"!=", 4, false⟩,
   ⟨"=~", 4, false⟩, ⟨"!~", 4, false⟩, ⟨"...", 1, false⟩, ⟨"..", 1, false⟩, ⟨"||", 2, false⟩,
   ⟨"&&", 3, false⟩, ⟨"<<", 8, false⟩, ⟨">>", 8, false⟩, ⟨"<=", 5, false⟩, ⟨">=", 5, false⟩,
   ⟨"<", 5, false⟩, ⟨">", 5, false⟩, ⟨"|", 6, false⟩, ⟨"^", 6, false⟩, ⟨"&", 7, false⟩,
   ⟨"+", 9, false⟩, ⟨"-", 9, false⟩, ⟨"*", 10, false⟩, ⟨"/", 10, false⟩, ⟨"%", 10, false⟩]

/-- Operators that an equals sign behind them turns into assignments. -/
def assigning : List String := assignmentOperators.map fun s => (s.dropEnd 1).toString

def operator? (mode : Mode) : Read (Option Operator) := do
  let rec go : List Operator → Read (Option Operator)
    | [] => pure none
    | op :: ops => do
      if ← seesText op.text then
        let followed ← seesAt op.text.utf8ByteSize '='
        if followed && assigning.contains op.text then return none
        if op.text == "&" && (← seesAt 1 '.') then return none
        if op.text == "|" && !mode.bars then return none
        return some op
      else go ops
  go operators

def joined (left : Node) (op : Operator × Node) (right : Node) : Node :=
  if op.1.level == 1 then branch "range" [left.inField "begin", op.2.inField "operator", right.inField "end"]
  else branch "binary" [left.inField "left", op.2.inField "operator", right.inField "right"]

abbrev Chain := List ((Operator × Node) × Node)

/-- Joins the operands around the operators of one level. -/
def joinLevel (level : Nat) : Node → Chain → Node × Chain
  | left, [] => (left, [])
  | left, (op, right) :: rest =>
    if op.1.level == level && !op.1.toRight then joinLevel level (joined left op right) rest
    else
      let (right, rest) := joinLevel level right rest
      if op.1.level == level then (joined left op right, rest) else (left, (op, right) :: rest)

/-- Joins all operands, the tightest operators first. -/
def joinAll (first : Node) (chain : Chain) : Node :=
  ((List.range 11).reverse.foldl (fun (n, rest) level => joinLevel level n rest) (first, chain)).1

/-- Operands and the operators between them. -/
def binary (g : Grammar) (mode : Mode) : Read Node := do
  let first ← unary g mode
  iterate ([] : Chain) fun chain => do
    let s ← get
    skipInline
    match ← operator? mode with
    | none =>
      set s
      return .inr (joinAll first chain)
    | some op =>
      let t ← token op.text
      if op.level == 1 then
        let s ← get
        skipInline
        if !(← seesOperand) then
          set s
          let n := joinAll first chain
          return .inr (branch "range" [n.inField "begin", t.inField "operator"])
      skipAll
      return .inl (chain ++ [((op, t), ← unary g mode.operand)])

/-- An expression without `and`, `or` and `not`. -/
def value (g : Grammar) (mode : Mode) : Read Node := do
  let n ← binary g mode
  let s ← get
  skipInline
  if !(← sees '?') then
    set s
    return n
  let question ← token "?"
  skipAll
  let yes ← g.value mode.operand
  skipAll
  let colon ← token ":"
  skipAll
  let no ← g.value mode.operand
  return branch "conditional"
    [n.inField "condition", question, yes.inField "consequence", colon, no.inField "alternative"]

/-- A value, what is matched against it, and the `not` before it. -/
def negation (g : Grammar) (mode : Mode) : Read Node := do
  let nots ← iterate ([] : List Node) fun acc => do
    if !(← seesWord "not") then return .inr acc
    let n ← token "not"
    skipInline
    return .inl (acc ++ [n])
  let n ← value g mode
  let s ← get
  skipInline
  let matched ← do
    let kinds := [("=>", "match_pattern"), ("in", "test_pattern")]
    let op ← if ← seesText "=>" then pure "=>" else word
    match kinds.lookup op with
    | some kind =>
      if mode.whole then
        let t ← token op
        skipInline
        pure (branch kind [n.inField "value", t, (← topPattern g).inField "pattern"])
      else
        set s
        pure n
    | none =>
      set s
      pure n
  return nots.foldr (fun op n => branch "unary" [op.inField "operator", n.inField "operand"]) matched

def expression (g : Grammar) (mode : Mode) : Read Node := do
  let first ← negation g mode
  iterate first fun n => do
    let s ← get
    skipInline
    if ← seesAnyWord ["and", "or"] then
      let op ← token (← word)
      skipAll
      let right ← negation g mode
      return .inl (branch "binary" [n.inField "left", op.inField "operator", right.inField "right"])
    set s
    return .inr n

end TimeLint.Ruby
