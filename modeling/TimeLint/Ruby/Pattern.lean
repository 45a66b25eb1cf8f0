import TimeLint.Ruby.Block

/-!
Patterns of `case … in`, `=>` and `in`.
-/

namespace TimeLint.Ruby

/-- A value with its range operator, if it has one. -/
def patternRange (g : Grammar) (first : Node) : Read Node := do
  let s ← get
  skipInline
  match ← firstSeen ["...", ".."] with
  | none =>
    set s
    return first
  | some dots =>
    let op ← token dots
    let mode := Mode.item.operand
    let s ← get
    skipInline
    if (← seesOperand) && !(← seesAnyWord ["then", "if", "unless"]) then
      return branch "range" [first, op, ← g.primary mode]
    set s
    return branch "range" [first, op]

/-- An item of a list pattern: a splat or a pattern. -/
def listItem (g : Grammar) : Read Node := do
  if ← sees '*' then
    let star ← token "*"
    match ← attempt identifier with
    | some n => return branch "splat_parameter" [star, n.inField "name"]
    | none => return branch "splat_parameter" [star]
  else g.pattern

/-- An item of a hash pattern: a key with or without a pattern, or the rest. -/
def keyItem (g : Grammar) : Read Node := do
  if ← seesText "**" then return ← markedName "hash_splat_parameter" "**"
  let key ← if ← seesLabel then label else quotedString g
  let colon ← token ":"
  let s ← get
  skipInline
  if (← seesOperand) && !(← atTerminator) then
    return branch "keyword_pattern" [key.inField "key", colon, (← g.pattern).inField "value"]
  set s
  return branch "keyword_pattern" [key.inField "key", colon]

def seesKeyItem : Read Bool := do
  if ← seesText "**" then return true
  if ← seesLabel then return true
  if !(← seesQuote) then return false
  let quote ← peek
  let line := ((← read).source.extract ((← place) + 1) (← lineEnd (← place))).data.toList
  match line.dropWhile (· != quote) with
  | _ :: 58 :: 58 :: _ => return false
  | _ :: 58 :: _ => return true
  | _ => return false

/-- The items between the parentheses or brackets behind a constant. -/
def constantItems (g : Grammar) (cls : Node) (opening closing : String) : Read Node := do
  let first ← token opening
  skipAll
  let keyed ← seesKeyItem
  let inner ← items closing (if keyed then keyItem g else listItem g)
  let kind := if keyed then "hash_pattern" else "array_pattern"
  return branch kind (cls.inField "class" :: first :: inner)

/-- A constant with its scopes. -/
def constantPath : Read Node := do
  let first ← do
    if ← seesText "::" then
      let op ← token "::"
      pure (branch "scope_resolution" [op, (← constant).inField "name"])
    else constant
  iterate first fun scope => do
    if !(← seesText "::") then return .inr scope
    let op ← token "::"
    return .inl (branch "scope_resolution" [scope.inField "scope", op, (← constant).inField "name"])

def patternPrimary (g : Grammar) : Read Node := do
  if ← sees '[' then
    let opening ← token "["
    return branch "array_pattern" (opening :: (← items "]" (listItem g)))
  if ← sees '\x7b' then
    let opening ← token "\x7b"
    return branch "hash_pattern" (opening :: (← items "\x7d" (keyItem g)))
  if ← sees '(' then
    let opening ← token "("
    skipAll
    let inner ← g.pattern
    skipAll
    return branch "parenthesized_pattern" [opening, inner, ← token ")"]
  if ← sees '^' then
    let hat ← token "^"
    if ← sees '(' then
      let opening ← token "("
      skipAll
      let inner ← g.expression .item
      skipAll
      return branch "expression_reference_pattern" [hat, opening, inner, ← token ")"]
    let n ← if (← sees '@') || (← sees '$') then sigilVariable else identifier
    return branch "variable_reference_pattern" [hat, n.inField "name"]
  if isUpper (← peek) || (← seesText "::") then
    let cls ← constantPath
    if ← sees '(' then return ← constantItems g cls "(" ")"
    if ← sees '[' then return ← constantItems g cls "[" "]"
    return ← patternRange g cls
  match ← firstSeen ["...", ".."] with
  | some dots =>
    let op ← token dots
    skipInline
    return branch "range" [op, ← g.primary Mode.item.operand]
  | none =>
    if let some n ← attempt identifier then return n
    let minus ← if (← sees '-') && !(← seesAt 1 '>') then pure [← token "-"] else pure []
    let n ← g.primary { Mode.item.operand with braces := false, doBlocks := false, bars := false }
    let n := if minus.isEmpty then n else branch "unary" (minus ++ [n])
    patternRange g n

/-- Alternatives, and the name they are bound to. -/
def pattern (g : Grammar) : Read Node := do
  let first ← patternPrimary g
  let alternatives ← iterate [first] fun acc => do
    let s ← get
    skipInline
    if ← sees '|' then
      let bar ← token "|"
      skipAll
      return .inl (acc ++ [bar, ← patternPrimary g])
    set s
    return .inr acc
  let n := match alternatives with
    | [n] => n
    | ns => branch "alternative_pattern" ns
  let s ← get
  skipInline
  if ← seesText "=>" then
    let arrow ← token "=>"
    skipAll
    return branch "as_pattern" [n.inField "value", arrow, (← identifier).inField "name"]
  set s
  return n

/-- A pattern that needs no brackets around its items. -/
def topPattern (g : Grammar) : Read Node := do
  if ← seesKeyItem then return branch "hash_pattern" (← commaList (keyItem g))
  let splat ← sees '*'
  let first ← listItem g
  let s ← get
  skipInline
  let comma ← sees ','
  set s
  if !(splat || comma) then return first
  let rest ← iterate [first] fun acc => do
    let s ← get
    skipInline
    if !(← sees ',') then
      set s
      return .inr acc
    let c ← token ","
    let s ← get
    skipInline
    if (← atTerminator) || (← seesWord "then") then
      set s
      return .inr (acc ++ [c])
    return .inl (acc ++ [c, ← listItem g])
  return branch "array_pattern" rest

end TimeLint.Ruby
