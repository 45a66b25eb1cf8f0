import TimeLint.Ruby.Read

/-!
Words, names, numbers and operators. A word is read as far as identifier characters go; characters
beyond ASCII belong to words, bytes that are no UTF-8 do not.
-/

namespace TimeLint.Ruby

def isDigit (b : UInt8) : Bool := 48 ≤ b && b ≤ 57

def isUpper (b : UInt8) : Bool := 65 ≤ b && b ≤ 90

def isLower (b : UInt8) : Bool := 97 ≤ b && b ≤ 122

def isAscii (b : UInt8) : Bool := b < 0x80

/-- An ASCII letter, digit or underscore. -/
def isPlainWord (b : UInt8) : Bool := isDigit b || isUpper b || isLower b || b == 95

/-- How many bytes the character at `i` takes if it may stand in a word, else zero. -/
def wordCharAt (i : Nat) : Read Nat := do
  let b ← byteAt i
  if isAscii b then return if isPlainWord b || b == 127 then 1 else 0
  let bytes := ((← read).source.extract i (i + 4)).data.toList
  match Bytes.headChar? bytes with
  | some (_, more) => return more + 1
  | none => return 0

/-- The place behind the word that starts at `i`. -/
def wordEnd (i : Nat) : Read Nat := do
  let rec go : Nat → Nat → Read Nat
    | 0, i => pure i
    | n + 1, i => do
      let w ← wordCharAt i
      if w == 0 then pure i else go n (i + w)
  go ((← read).source.size - i) i

def textOf (start stop : Nat) : Read String :=
  return Bytes.decodeLossy ((← read).source.extract start stop).data.toList

/-- The word in front, empty if there is none. -/
def word : Read String := do
  let i ← place
  if isDigit (← peek) then return ""
  textOf i (← wordEnd i)

def seesWord (w : String) : Read Bool := return (← word) == w

def seesAnyWord (ws : List String) : Read Bool := do
  let w ← word
  return ws.contains w

/-- The keyword `w`, taken as a token. -/
def keyword (w : String) : Read Node := do if ← seesWord w then token w else stuck

/-- Words that no variable may have as its name. -/
def reserved : List String :=
  ["alias", "and", "begin", "BEGIN", "break", "case", "class", "def", "do", "else", "elsif", "end",
   "END", "ensure", "false", "for", "if", "in", "module", "next", "nil", "not", "or", "redo", "rescue",
   "retry", "return", "self", "super", "then", "true", "undef", "unless", "until", "when", "while",
   "yield"]

/-- Words that go on with or close what stands before them. -/
def joining : List String :=
  ["and", "do", "else", "elsif", "end", "ensure", "if", "in", "or", "rescue", "then", "unless",
   "until", "when", "while"]

/-- Words at which a run of statements ends. -/
def closing : List String := ["else", "elsif", "end", "ensure", "in", "rescue", "then", "when", "do"]

/-- A `?` or `!` at `i` belongs to the name before it. -/
def isSuffixAt (i : Nat) : Read Bool := do
  let b ← byteAt i
  if !(isByte b '?' || isByte b '!') then return false
  if !(isByte (← byteAt (i + 1)) '=') then return true
  let c ← byteAt (i + 2)
  return isByte c '=' || isByte c '~' || isByte c '>'

/-- The place behind the method name that starts at `i`. -/
def nameEnd (i : Nat) : Read Nat := do
  let stop ← wordEnd i
  if stop != i && (← isSuffixAt stop) then return stop + 1 else return stop

/-- A method name or variable: `constant` if it starts with a capital letter. -/
def name : Read Node := do
  let start ← place
  let b ← peek
  let stop ← nameEnd start
  if isDigit b || stop == start then stuck
  moveTo stop
  leaf (if isUpper b then "constant" else "identifier") start

/-- A word without suffix: parameter and local names. -/
def identifier : Read Node := do
  let start ← place
  let b ← peek
  let stop ← wordEnd start
  if isDigit b || isUpper b || stop == start then stuck
  if reserved.contains (← textOf start stop) then stuck
  moveTo stop
  leaf "identifier" start

def constant : Read Node := do
  let start ← place
  if !isUpper (← peek) then stuck
  moveTo (← wordEnd start)
  leaf "constant" start

/-- The source goes on with a name and one colon: the key of a pair. -/
def seesLabel : Read Bool := do
  let i ← place
  if isDigit (← peek) then return false
  let word ← wordEnd i
  if word == i then return false
  let labelled (stop : Nat) : Read Bool := do
    return isByte (← byteAt stop) ':' && !isByte (← byteAt (stop + 1)) ':'
  if ← labelled word then return true
  let b ← byteAt word
  if isByte b '?' || isByte b '!' then labelled (word + 1) else return false

/-- The key of a pair, without its colon. -/
def label : Read Node := do
  let start ← place
  repeatWhile do
    if ← sees ':' then return false
    advance 1
    return true
  leaf "hash_key_symbol" start

/-- Operators that name methods; of two that fit, the longer comes first. -/
def operatorNames : List String :=
  ["[]=", "[]", "<=>", "===", "==", "=~", "!=", "!~", "**", "+@", "-@", "~@", "!@", "<<", ">>", "<=",
   ">=", "<", ">", "+", "-", "*", "/", "%", "!", "~", "^", "&", "|", "`"]

def firstSeen : List String → Read (Option String)
  | [] => pure none
  | t :: ts => do if ← seesText t then pure (some t) else firstSeen ts

def operatorName : Read Node := do
  match ← firstSeen operatorNames with
  | none => stuck
  | some t =>
    let start ← place
    advance t.utf8ByteSize
    leaf "operator" start

/-- An instance, class or global variable. -/
def sigilVariable : Read Node := do
  let start ← place
  let rest (kind : String) (sigil : Nat) : Read Node := do
    let i := start + sigil
    let stop ← wordEnd i
    if stop == i || isDigit (← byteAt i) then stuck
    moveTo stop
    leaf kind start
  if ← sees '@' then
    if ← seesAt 1 '@' then rest "class_variable" 2 else rest "instance_variable" 1
  else if ← sees '$' then
    let i := start + 1
    let stop ← wordEnd i
    if stop != i then
      moveTo stop
      leaf "global_variable" start
    else if (← seesAt 1 '-') && isPlainWord (← peekAt 2) then
      advance 3
      leaf "global_variable" start
    else if "!@&`'+~=/\\,;.<>_*$?:\"".toList.any (isByte (← peekAt 1)) then
      advance 2
      leaf "global_variable" start
    else stuck
  else stuck

/-- The place behind the digits (with single underscores between them) that start at `i`. -/
def digitsEnd (i : Nat) : Read Nat := do
  let rec go : Nat → Nat → Read Nat
    | 0, i => pure i
    | n + 1, i => do
      let b ← byteAt i
      if isDigit b || (b == 95 && isPlainWord (← byteAt (i + 1))) then go n (i + 1) else pure i
  go ((← read).source.size - i) i

def number : Read Node := do
  let start ← place
  if !isDigit (← peek) then stuck
  let second ← peekAt 1
  let kind ← do
    if (← sees '0') && "xXbBoOdD".toList.any (isByte second) && isPlainWord (← peekAt 2) then
      moveTo (← wordEnd start)
      pure "integer"
    else
      moveTo (← digitsEnd start)
      let whole ← do
        if (← sees '.') && isDigit (← peekAt 1) then
          moveTo (← digitsEnd ((← place) + 1))
          pure false
        else pure true
      let sign := isByte (← peekAt 1) '-' || isByte (← peekAt 1) '+'
      let power := isByte (← peek) 'e' || isByte (← peek) 'E'
      let first := (← place) + (if sign then 2 else 1)
      if power && isDigit (← byteAt first) then
        moveTo (← digitsEnd first)
        pure "float"
      else pure (if whole then "integer" else "float")
  let kind ← if (← sees 'r') then advance 1; pure "rational" else pure kind
  let kind ← if (← sees 'i') && !isPlainWord (← peekAt 1) then advance 1; pure "complex" else pure kind
  leaf kind start

end TimeLint.Ruby
