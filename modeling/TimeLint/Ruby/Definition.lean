import TimeLint.Ruby.Pattern

/-!
Definitions of methods, classes and modules, `alias` and `undef`.
-/

namespace TimeLint.Ruby

/-- A writer's name: the sign belongs to it if nothing but parameters can follow. -/
def isWriterAt (i : Nat) : Read Bool := do
  if !isByte (← byteAt i) '=' then return false
  let b ← byteAt (i + 1)
  return isByte b '(' || isByte b ' ' && isByte (← byteAt (i + 2)) '(' || isPlainWord b

/-- The name of a method in a definition. -/
def methodName (g : Grammar) : Read Node := do
  if (← sees '@') || (← sees '$') then sigilVariable
  else if (← sees ':') then symbol g
  else if let some n ← attempt operatorName then return n
  else
    let n ← name
    if ← isWriterAt (← place) then
      return branch "setter" [n.inField "name", ← token "="]
    return n

/-- The object a method is defined on, with the operator behind it. -/
def singletonHead (g : Grammar) : Read (List Node) := do
  let object ← do
    if ← sees '(' then
      let opening ← token "("
      skipAll
      let n ← g.value .item
      skipAll
      pure [opening, n.inField "object", ← token ")"]
    else if (← sees '@') || (← sees '$') then pure [(← sigilVariable).inField "object"]
    else if ← seesWord "self" then
      let start ← place
      advance 4
      pure [(← leaf "self" start).inField "object"]
    else pure [(← name).inField "object"]
  let op ← if ← sees '.' then token "." else token "::"
  return object ++ [op]

/-- The body of a definition behind an equals sign. -/
def endlessBody (g : Grammar) : Read (List Node) := do
  let sign ← token "="
  skipAll
  let n ← g.value { Mode.item with whole := false }
  let s ← get
  skipInline
  if ← seesWord "rescue" then
    let word ← token "rescue"
    skipAll
    let handler ← g.value Mode.item
    let both := branch "rescue_modifier" [n.inField "body", word, handler.inField "handler"]
    return [sign, both.inField "body"]
  set s
  return [sign, n.inField "body"]

def closeBody (g : Grammar) (head : List Node) : Read (List Node) := do
  let body ← bodyStatement g
  skipTerminators
  return head ++ body ++ [← keyword "end"]

def seesEquals : Read Bool := return (← sees '=') && !(← seesAt 1 '=') && !(← seesAt 1 '~')

def method (g : Grammar) : Read Node := do
  let defWord ← keyword "def"
  skipInline
  let object ← attempt (singletonHead g)
  if object.isSome then skipAll
  let kind := if object.isSome then "singleton_method" else "method"
  let head := defWord :: object.getD []
  let n ← methodName g
  let named := head ++ [n.inField "name"]
  skipInline
  if ← sees '(' then
    let params ← methodParameters g
    let head := named ++ [params.inField "parameters"]
    let s ← get
    skipInline
    if ← seesEquals then return branch kind (head ++ (← endlessBody g))
    set s
    return branch kind (← closeBody g head)
  if ← seesEquals then return branch kind (named ++ (← endlessBody g))
  if ← atTerminator then return branch kind (← closeBody g named)
  let params ← commaList (parameter g .item)
  skipInline
  if !(← atTerminator) then stuck
  let bare := (branch "method_parameters" params).inField "parameters"
  return branch kind (← closeBody g (named ++ [bare]))

def classDefinition (g : Grammar) : Read Node := do
  let classWord ← keyword "class"
  skipInline
  if ← seesText "<<" then
    let angles ← token "<<"
    skipInline
    let value ← g.value .item
    skipInline
    if !(← atTerminator) then stuck
    return branch "singleton_class" (← closeBody g [classWord, angles, value.inField "value"])
  let path ← constantPath
  let head := [classWord, path.inField "name"]
  let s ← get
  skipInline
  if ← sees '<' then
    let sign ← token "<"
    skipAll
    let parent ← g.expression .item
    skipInline
    if !(← atTerminator) then stuck
    let super := (branch "superclass" [sign, parent]).inField "superclass"
    return branch "class" (← closeBody g (head ++ [super]))
  set s
  return branch "class" (← closeBody g head)

def moduleDefinition (g : Grammar) : Read Node := do
  let moduleWord ← keyword "module"
  skipInline
  let path ← constantPath
  return branch "module" (← closeBody g [moduleWord, path.inField "name"])

def aliasStatement (g : Grammar) : Read Node := do
  let aliasWord ← keyword "alias"
  skipInline
  let new ← methodName g
  skipInline
  let old ← methodName g
  return branch "alias" [aliasWord, new.inField "name", old.inField "alias"]

def undefStatement (g : Grammar) : Read Node := do
  let undefWord ← keyword "undef"
  skipInline
  return branch "undef" (undefWord :: (← commaList (methodName g)))

/-- Statements run before or after all others. -/
def edgeBlock (g : Grammar) (keywordText kind : String) : Read Node := do
  let head ← keyword keywordText
  skipInline
  let opening ← token "\x7b"
  let body ← g.statements
  skipTerminators
  return branch kind (head :: opening :: body ++ [← token "\x7d"])

end TimeLint.Ruby
