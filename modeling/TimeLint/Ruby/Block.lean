import TimeLint.Ruby.Argument

/-!
Parameters, bodies with their rescues, blocks and lambdas.
-/

namespace TimeLint.Ruby

/-- A name behind a mark, which may stand alone. -/
def markedName (kind mark : String) : Read Node := do
  let m ← token mark
  if ← seesWord "nil" then return branch "hash_splat_nil" [m, ← token "nil"]
  match ← attempt identifier with
  | some n => return branch kind [m, n.inField "name"]
  | none => return branch kind [m]

def parameter (g : Grammar) (mode : Mode) : Read Node := do
  if ← seesText "..." then return branch "forward_parameter" [← token "..."]
  if ← seesText "**" then return ← markedName "hash_splat_parameter" "**"
  if ← sees '*' then return ← markedName "splat_parameter" "*"
  if ← sees '&' then return ← markedName "block_parameter" "&"
  if ← sees '(' then
    let opening ← token "("
    return branch "destructured_parameter" (opening :: (← items ")" (g.parameter .item)))
  let n ← identifier
  if (← sees ':') && !(← seesAt 1 ':') then
    let colon ← token ":"
    let s ← get
    skipInline
    if (← seesOperand) && !(← sees '|') then
      let value ← g.value mode.operand
      return branch "keyword_parameter" [n.inField "name", colon, value.inField "value"]
    set s
    return branch "keyword_parameter" [n.inField "name", colon]
  let s ← get
  skipInline
  if (← sees '=') && !(← seesAt 1 '=') && !(← seesAt 1 '>') then
    let sign ← token "="
    skipAll
    let value ← g.value mode.operand
    return branch "optional_parameter" [n.inField "name", sign, value.inField "value"]
  set s
  return n

def methodParameters (g : Grammar) : Read Node := do
  let opening ← token "("
  return branch "method_parameters" (opening :: (← items ")" (parameter g .item)))

/-- Names that a block keeps to itself, behind a semicolon. -/
def blockLocals : Read (List Node) := do
  skipAll
  if !(← sees ';') then return []
  let semicolon ← token ";"
  skipAll
  let names ← commaList identifier
  return semicolon :: names

/-- Parameters between bars. -/
def blockParameters (g : Grammar) : Read Node := do
  let opening ← token "|"
  let mode : Mode := { Mode.item with bars := false }
  let inner ← iterate ([] : List Node) fun acc => do
    skipAll
    if (← sees '|') || (← sees ';') then return .inr acc
    let n ← parameter g mode
    skipAll
    if ← sees ',' then return .inl (acc ++ [n, ← token ","])
    return .inr (acc ++ [n])
  let names ← blockLocals
  skipAll
  let closing ← token "|"
  return branch "block_parameters" (opening :: inner ++ names ++ [closing])

def rescueClause (g : Grammar) : Read Node := do
  let head ← keyword "rescue"
  skipInline
  let exceptions ← do
    if (← atTerminator) || (← seesText "=>") || (← seesWord "then") then pure []
    else
      let one : Read Node := do
        if ← sees '*' then marked g Mode.item.operand "splat_argument" "*"
        else g.value Mode.item.operand
      pure [(branch "exceptions" (← commaList one)).inField "exceptions"]
  skipInline
  let binding ← do
    if ← seesText "=>" then
      let arrow ← token "=>"
      skipAll
      let target ← g.primary .target
      pure [(branch "exception_variable" [arrow, target]).inField "variable"]
    else pure []
  let thenWord ← headEnd
  let body ← g.statements
  return branch "rescue"
    (head :: exceptions ++ binding ++ (optionalBranch "then" (thenWord ++ body)).map (·.inField "body"))

/-- Statements and the clauses behind them, up to the closing word. -/
def clauses (g : Grammar) : Read (List Node) := do
  let body ← g.statements
  iterate body fun acc => do
    skipTerminators
    if ← seesWord "rescue" then return .inl (acc ++ [← rescueClause g])
    if ← seesWord "else" then
      let head ← token "else"
      return .inl (acc ++ [branch "else" (head :: (← g.statements))])
    if ← seesWord "ensure" then
      let head ← token "ensure"
      return .inl (acc ++ [branch "ensure" (head :: (← g.statements))])
    return .inr acc

/-- The body of a definition or block, as what fills the field `body`. -/
def bodyStatement (g : Grammar) : Read (List Node) := do
  return (optionalBranch "body_statement" (← clauses g)).map (·.inField "body")

def blockHead (g : Grammar) : Read (List Node) := do
  let s ← get
  skipAll
  if (← sees '|') && !(← seesText "||") then return [(← blockParameters g).inField "parameters"]
  if ← seesText "||" then
    return [(branch "block_parameters" [← token "|", ← token "|"]).inField "parameters"]
  set s
  return []

def braceBlock (g : Grammar) : Read Node := do
  let opening ← token "\x7b"
  let head ← blockHead g
  let body ← g.statements
  skipTerminators
  let closing ← token "\x7d"
  let inner := (optionalBranch "block_body" body).map (·.inField "body")
  return branch "block" (opening :: head ++ inner ++ [closing])

def doBlock (g : Grammar) : Read Node := do
  let opening ← keyword "do"
  let head ← blockHead g
  let body ← bodyStatement g
  skipTerminators
  let closing ← keyword "end"
  return branch "do_block" (opening :: head ++ body ++ [closing])

def lambda (g : Grammar) : Read Node := do
  let arrow ← token "->"
  skipInline
  let params ← do
    if ← sees '(' then
      let opening ← token "("
      let inner ← iterate ([] : List Node) fun acc => do
        skipAll
        if (← sees ')') || (← sees ';') then return .inr acc
        let n ← parameter g .item
        skipAll
        if ← sees ',' then return .inl (acc ++ [n, ← token ","])
        return .inr (acc ++ [n])
      let names ← blockLocals
      skipAll
      let closing ← token ")"
      pure [branch "lambda_parameters" (opening :: inner ++ names ++ [closing])]
    else if (← sees '\x7b') || (← seesWord "do") then pure []
    else
      let mode : Mode := { Mode.item with braces := false, doBlocks := false }
      pure [branch "lambda_parameters" (← commaList (parameter g mode))]
  skipInline
  let body ← if ← sees '\x7b' then braceBlock g else doBlock g
  return branch "lambda" (arrow :: params.map (·.inField "parameters") ++ [body.inField "body"])

end TimeLint.Ruby
