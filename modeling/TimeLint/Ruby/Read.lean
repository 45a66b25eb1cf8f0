import TimeLint.Syntax.Node

/-!
Reading Ruby source byte by byte. The state is the place reached, the comments and heredoc bodies met
on the way, and, once a heredoc has been opened on a line, the place where the text after that line
goes on. Giving a reading up restores the state, so alternatives can be tried.

A newline ends a statement unless the next text that is no blank is a comment or a call operator.
-/

namespace TimeLint.Ruby

/-- What stays the same during one reading. -/
structure Scene where
  source : ByteArray
  points : Array Point

structure State where
  pos : Nat
  extras : List Node
  resume : Option Nat

/-- Where reading got stuck, and where the innermost and the outermost statement around that place
start. -/
structure Stuck where
  place : Nat
  inner : Option Nat
  outer : Option Nat
deriving Repr

abbrev Read := ReaderT Scene (StateT State (Except Stuck))

def place : Read Nat := return (← get).pos

def stuck {α : Type} : Read α := do throw ⟨← place, none, none⟩

/-- `none`, with the state as it was, if `p` gets stuck. -/
def attempt {α : Type} (p : Read α) : Read (Option α) :=
  try some <$> p catch _ => pure none

/-- The result of `p`, with the state as it was. -/
def ahead {α : Type} (p : Read α) : Read α := do
  let s ← get
  let a ← p
  set s
  return a

def byteAt (i : Nat) : Read UInt8 := return (← read).source[i]?.getD 0

/-- The byte `k` places on, zero behind the end. -/
def peekAt (k : Nat) : Read UInt8 := do byteAt ((← place) + k)

def peek : Read UInt8 := peekAt 0

def atEnd : Read Bool := return (← read).source.size ≤ (← get).pos

def moveTo (i : Nat) : Read Unit := modify fun s => { s with pos := i }

def advance (n : Nat) : Read Unit := modify fun s => { s with pos := s.pos + n }

def isByte (b : UInt8) (c : Char) : Bool := b.toNat == c.toNat

def sees (c : Char) : Read Bool := return isByte (← peek) c

def seesAt (k : Nat) (c : Char) : Read Bool := return isByte (← peekAt k) c

/-- The source goes on with `text`. -/
def seesText (text : String) : Read Bool := do
  let i ← place
  let bytes := text.toUTF8
  return (← read).source.extract i (i + bytes.size) == bytes

def iterateFor {α β : Type} : Nat → β → (β → Read (β ⊕ α)) → Read α
  | 0, _, _ => stuck
  | n + 1, b, step => do
    match ← step b with
    | .inl b' => iterateFor n b' step
    | .inr a => pure a

/-- Repeats `step` until it gives a result. Each turn takes a byte or more, so the bytes left bound
the turns. -/
def iterate {α β : Type} (b : β) (step : β → Read (β ⊕ α)) : Read α := do
  iterateFor ((← read).source.size - (← place) + 2) b step

/-- Repeats `p` for as long as it says so. -/
def repeatWhile (p : Read Bool) : Read Unit :=
  iterate () fun _ => return if ← p then .inl () else .inr ()

def pointAt (i : Nat) : Read Point := return (← read).points[i]?.getD default

def leafOf (kind : String) (named : Bool) (start stop : Nat) : Read Node := do
  return {
    kind, named
    extent := ⟨start, stop, ← pointAt start, ← pointAt stop⟩
    missing := false
    broken := false
    field := none
    children := [] }

/-- A named node without children from `start` to here. -/
def leaf (kind : String) (start : Nat) : Read Node := do leafOf kind true start (← place)

/-- The token `text` in front, taken as a node. -/
def token (text : String) : Read Node := do
  if ← seesText text then
    let start ← place
    advance text.utf8ByteSize
    leafOf text false start (← place)
  else stuck

/-- A node over its children, which are there in order. -/
def branch (kind : String) (children : List Node) : Node :=
  let extent : Extent :=
    { start := ((children.head?.map (·.extent.start)).getD 0)
      stop := ((children.getLast?.map (·.extent.stop)).getD 0)
      first := ((children.head?.map (·.extent.first)).getD default)
      last := ((children.getLast?.map (·.extent.last)).getD default) }
  { kind, extent, named := true, missing := false, broken := children.any (·.broken), field := none
    children }

end TimeLint.Ruby

namespace TimeLint.Node

/-- The node as what fills the field `name`. -/
def inField (n : Node) (name : String) : Node := { n with field := some name }

end TimeLint.Node

namespace TimeLint.Ruby

def addExtra (n : Node) : Read Unit := modify fun s => { s with extras := n :: s.extras }

def isBlank (b : UInt8) : Bool := b == 32 || b == 9 || b == 11 || b == 12 || b == 13

def isNewline (b : UInt8) : Bool := b == 10

/-- The place of the first newline from `i` on, or the end. -/
def lineEnd (i : Nat) : Read Nat := do
  let size := (← read).source.size
  let rec go : Nat → Nat → Read Nat
    | 0, i => pure i
    | n + 1, i => do if isNewline (← byteAt i) || size ≤ i then pure i else go n (i + 1)
  go (size - i) i

/-- Takes the comment in front, up to the end of its line. -/
def lineComment : Read Unit := do
  let start ← place
  let stop ← lineEnd start
  let stop := if 0 < stop && (← byteAt (stop - 1)) == 13 then stop - 1 else stop
  moveTo stop
  addExtra (← leaf "comment" start)

/-- A backslash that joins two lines: how many bytes it takes with the newline, zero if it is none. -/
def joint : Read Nat := do
  if !(← sees '\\') then return 0
  if ← seesAt 1 '\n' then return 2
  if (← seesAt 1 '\r') && (← seesAt 2 '\n') then return 3
  return 0

def atColumnZero : Read Bool := do
  let i ← place
  return i == 0 || isNewline (← byteAt (i - 1))

/-- Takes a comment block from `=begin` to the line of `=end`, if one starts here. -/
def blockComment : Read Bool := do
  if !(← atColumnZero) || !(← seesText "=begin") then return false
  let start ← place
  moveTo (← lineEnd start)
  repeatWhile do
    if ← atEnd then return false
    advance 1
    if ← seesText "=end" then
      moveTo (← lineEnd (← place))
      return false
    moveTo (← lineEnd (← place))
    return true
  addExtra (← leaf "comment" start)
  return true

/-- Goes past a newline; behind a line that opened heredocs, past their bodies as well. -/
def passNewline : Read Unit := do
  match (← get).resume with
  | some i => modify fun s => { s with pos := i, resume := none }
  | none => advance 1

/-- Blanks, joints and newlines, but no comments. -/
def skipSpace : Read Unit := repeatWhile do
  let b ← peek
  if isBlank b || isNewline b then
    advance 1
    return true
  let j ← joint
  advance j
  return j != 0

/-- The newline here does not end the statement. -/
def continues : Read Bool := ahead do
  skipSpace
  if ← sees '#' then return true
  if ← sees '.' then return !(← seesAt 1 '.')
  if ← sees '&' then seesAt 1 '.'
  else return false

/-- Skips blanks and comments up to the next token or the end of the statement. -/
def skipInline : Read Unit := repeatWhile do
  let b ← peek
  if isBlank b then
    advance 1
    return true
  if isByte b '#' then
    lineComment
    return true
  if isNewline b then
    if (← get).resume.isSome then
      passNewline
      return true
    if ← continues then
      skipSpace
      return true
    return false
  let j ← joint
  advance j
  return j != 0

/-- Skips blanks, comments and newlines up to the next token. -/
def skipAll : Read Unit := repeatWhile do
  let b ← peek
  if isBlank b then
    advance 1
    return true
  if isByte b '#' then
    lineComment
    return true
  if isNewline b then
    passNewline
    return true
  if ← blockComment then return true
  let j ← joint
  advance j
  return j != 0

/-- Skips blanks, comments, newlines and semicolons. -/
def skipTerminators : Read Unit := repeatWhile do
  skipAll
  if ← sees ';' then
    advance 1
    return true
  return false

/-- A statement can end here. -/
def atTerminator : Read Bool := do
  let b ← peek
  return isNewline b || isByte b ';' || (← atEnd)

end TimeLint.Ruby
