import TimeLint.Ruby.Definition

/-!
Conditionals, loops, `case`, `begin` and jumps.
-/

namespace TimeLint.Ruby

def elseClause (g : Grammar) : Read Node := do
  let head ← keyword "else"
  return branch "else" (head :: (← g.statements))

/-- The statements behind a head, with the word that ends the head. -/
def thenClause (g : Grammar) (field : String) : Read (List Node) := do
  let thenWord ← headEnd
  let body ← g.statements
  return (optionalBranch "then" (thenWord ++ body)).map (·.inField field)

/-- The `elsif` and `else` clauses of a conditional, in order. -/
def alternatives (g : Grammar) : Read (List Node) := do
  iterate ([] : List Node) fun acc => do
    skipTerminators
    if ← seesWord "elsif" then
      let head ← token "elsif"
      skipAll
      let condition ← g.expression .statement
      let body ← thenClause g "consequence"
      return .inl (acc ++ [branch "elsif" (head :: condition.inField "condition" :: body)])
    if ← seesWord "else" then return .inr (acc ++ [(← elseClause g).inField "alternative"])
    return .inr acc

def conditional (g : Grammar) (kind : String) : Read Node := do
  let head ← keyword kind
  skipAll
  let condition ← g.expression .statement
  let body ← thenClause g "consequence"
  let others ← alternatives g
  skipTerminators
  let closing ← keyword "end"
  return branch kind (head :: condition.inField "condition" :: body ++ others ++ [closing])

/-- The body of a loop, from `do` or the end of the line to `end`. -/
def loopBody (g : Grammar) : Read Node := do
  skipInline
  let head ← do
    if ← seesWord "do" then pure [← token "do"]
    else if ← atTerminator then
      skipTerminators
      pure []
    else stuck
  let body ← g.statements
  skipTerminators
  return branch "do" (head ++ body ++ [← keyword "end"])

def loop (g : Grammar) (kind : String) : Read Node := do
  let head ← keyword kind
  skipAll
  let condition ← g.expression .condition
  let body ← loopBody g
  return branch kind [head, condition.inField "condition", body.inField "body"]

/-- Targets between commas; a list of them if there is more than one. -/
def loopTargets (g : Grammar) : Read Node := do
  let targets ← commaList g.target
  match targets with
  | [n] => return if n.kind == "rest_assignment" || n.kind == "destructured_left_assignment" then
      branch "left_assignment_list" [n] else n
  | ns => return branch "left_assignment_list" ns

def forLoop (g : Grammar) : Read Node := do
  let head ← keyword "for"
  skipInline
  let targets ← loopTargets g
  skipInline
  let inWord ← keyword "in"
  skipAll
  let value ← g.value { Mode.condition with whole := false }
  let range := branch "in" [inWord, value]
  let body ← loopBody g
  return branch "for" [head, targets.inField "pattern", range.inField "value", body.inField "body"]

def whenClause (g : Grammar) : Read Node := do
  let head ← keyword "when"
  skipAll
  let one : Read Node := do
    let n ← if ← sees '*' then marked g Mode.item.operand "splat_argument" "*"
      else g.value Mode.item.operand
    return (branch "pattern" [n]).inField "pattern"
  let patterns ← commaList one
  let body ← thenClause g "body"
  return branch "when" (head :: patterns ++ body)

def guardClause (g : Grammar) : Read (List Node) := do
  let s ← get
  skipInline
  let kinds := [("if", "if_guard"), ("unless", "unless_guard")]
  match kinds.lookup (← word) with
  | none =>
    set s
    return []
  | some kind =>
    let head ← token (← word)
    skipAll
    let condition ← g.expression .statement
    return [(branch kind [head, condition.inField "condition"]).inField "guard"]

def inClause (g : Grammar) : Read Node := do
  let head ← keyword "in"
  skipInline
  let p ← topPattern g
  let guardNode ← guardClause g
  let body ← thenClause g "body"
  return branch "in_clause" (head :: p.inField "pattern" :: guardNode ++ body)

def caseSwitch (g : Grammar) : Read Node := do
  let head ← keyword "case"
  skipInline
  let value ← do
    if ← atTerminator then pure []
    else pure [(← g.expression { Mode.statement with whole := false }).inField "value"]
  skipTerminators
  let matching ← seesWord "in"
  let inner ← iterate ([] : List Node) fun acc => do
    skipTerminators
    if ← seesWord "when" then return .inl (acc ++ [← whenClause g])
    if ← seesWord "in" then return .inl (acc ++ [(← inClause g).inField "clauses"])
    return .inr acc
  if inner.isEmpty then stuck
  let other ← if ← seesWord "else" then pure [← elseClause g] else pure []
  skipTerminators
  let closing ← keyword "end"
  return branch (if matching then "case_match" else "case") (head :: value ++ inner ++ other ++ [closing])

def beginBlock (g : Grammar) : Read Node := do
  let head ← keyword "begin"
  let body ← clauses g
  skipTerminators
  return branch "begin" (head :: body ++ [← keyword "end"])

/-- `return`, `break`, `next` and `yield`, with what they hand over. -/
def jump (g : Grammar) (mode : Mode) (kind : String) : Read Node := do
  let head ← keyword kind
  if (← sees '(') && kind == "yield" then return branch kind [head, ← argumentList g]
  let s ← get
  skipInline
  if ← seesOperand then
    return branch kind [head, ← bareArguments g { mode with commands := true, whole := false }]
  set s
  return branch kind [head]

end TimeLint.Ruby
