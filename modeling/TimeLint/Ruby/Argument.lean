import TimeLint.Ruby.Literal

/-!
Arguments, pairs, arrays and hashes.
-/

namespace TimeLint.Ruby

/-- Something that can be an operand starts here. -/
def seesOperand : Read Bool := do
  let b ← peek
  if ← atEnd then return false
  if isNewline b || isBlank b then return false
  if ")]\x7d,;=>|^?#\\".toList.any (isByte b) then return false
  if isByte b '.' then seesAt 1 '.'
  else if isByte b ':' then
    let c ← peekAt 1
    return !isBlank c && !isNewline c
  else if isByte b '<' then return (← tag?).isSome
  else if joining.contains (← word) then seesLabel
  else return true

/-- The value behind a key, which may be left out. -/
def pairValue (g : Grammar) (mode : Mode) : Read (List Node) := do
  let s ← get
  skipAll
  if ← seesOperand then return [(← g.expression mode).inField "value"]
  set s
  return []

/-- A key with a colon, and its value. -/
def labelled (g : Grammar) (mode : Mode) : Read Node := do
  let key ← label
  let colon ← token ":"
  let value ← pairValue g mode
  return branch "pair" (key.inField "key" :: colon :: value)

/-- A string with a colon right behind it, and its value. -/
def labelledString (g : Grammar) (mode : Mode) : Read Node := do
  let key ← quotedString g
  if (← seesAt 1 ':') || !(← sees ':') then stuck
  let colon ← token ":"
  let value ← pairValue g mode
  return branch "pair" (key.inField "key" :: colon :: value)

/-- An operand behind a mark, which may stand alone. -/
def marked (g : Grammar) (mode : Mode) (kind mark : String) : Read Node := do
  let m ← token mark
  let s ← get
  skipAll
  if (← seesOperand) && !(← seesText "=>") then return branch kind [m, ← g.value mode]
  set s
  return branch kind [m]

/-- An argument; `plain` reads one that is neither marked nor labelled. -/
def argumentWith (g : Grammar) (mode : Mode) (plain : Read Node) : Read Node := do
  if ← seesText "**" then return ← marked g mode "hash_splat_argument" "**"
  if ← sees '*' then return ← marked g mode "splat_argument" "*"
  if ← sees '&' then return ← marked g mode "block_argument" "&"
  if ← seesText "..." then
    let s ← get
    let dots ← token "..."
    skipAll
    if ← sees ')' then return branch "forward_argument" [dots]
    set s
  if ← seesLabel then return ← labelled g mode
  if ← seesQuote then
    if let some n ← attempt (labelledString g mode) then return n
  let n ← plain
  let s ← get
  skipInline
  if ← seesText "=>" then
    let arrow ← token "=>"
    skipAll
    let value ← g.expression mode
    return branch "pair" [n.inField "key", arrow, value.inField "value"]
  set s
  return n

/-- An argument between delimiters. -/
def argument (g : Grammar) (mode : Mode) : Read Node := argumentWith g mode (g.expression mode)

/-- Arguments in parentheses. -/
def argumentList (g : Grammar) : Read Node := do
  let opening ← token "("
  return branch "argument_list" (opening :: (← items ")" (argument g .item)))

/-- Arguments without parentheses: `and` and `or` stand behind the whole call. -/
def bareArguments (g : Grammar) (mode : Mode) : Read Node := do
  return branch "argument_list" (← commaList (argumentWith g mode (g.value mode)))

def array (g : Grammar) : Read Node := do
  let opening ← token "["
  return branch "array" (opening :: (← items "]" (argument g .item)))

def hash (g : Grammar) : Read Node := do
  let opening ← token "\x7b"
  return branch "hash" (opening :: (← items "\x7d" (argument g .item)))

/-- An argument without parentheses starts here; `spaced` tells whether a blank stands before it. -/
def seesArgument (spaced : Bool) : Read Bool := do
  let b ← peek
  let c ← peekAt 1
  let tight := !isBlank c && !isNewline c
  if ← atEnd then return false
  if isNewline b then return false
  if isPlainWord b || !isAscii b then
    if !spaced then return false
    if isDigit b then return true
    if joining.contains (← word) then seesLabel else return true
  else if isByte b '"' || isByte b '\'' || isByte b '`' || isByte b '@' || isByte b '$' then return true
  else if isByte b ':' then
    if isByte c ':' then return spaced else return spaced && tight
  else if isByte b '[' || isByte b '(' then return spaced
  else if isByte b '-' then
    if isByte c '>' then return true
    return spaced && tight && !isByte c '='
  else if isByte b '*' then
    if isByte c '*' then
      let d ← peekAt 2
      return spaced && !isBlank d && !isNewline d && !isByte d '='
    return spaced && tight && !isByte c '='
  else if isByte b '&' then return tight && !isByte c '&' && !isByte c '.' && !isByte c '='
  else if isByte b '!' then return spaced && !isByte c '=' && !isByte c '~'
  else if isByte b '~' then return spaced
  else if isByte b '/' then return spaced && tight && !isByte c '='
  else if isByte b '%' then return spaced && (← seesPercent true)
  else if isByte b '<' then return (← tag?).isSome
  else if isByte b '?' then return spaced && (← seesCharacter)
  else return false

end TimeLint.Ruby
