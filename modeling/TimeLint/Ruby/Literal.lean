import TimeLint.Ruby.Grammar

/-!
Strings, symbols, regular expressions, word lists and heredocs. Text between delimiters may hold
interpolated statements. The body of a heredoc is read when its opening is met: it starts behind the
line at hand, or behind the bodies opened there before, and becomes a node of its own.
-/

namespace TimeLint.Ruby

/-- How the text of a literal ends and what it may hold. -/
structure Fence where
  /-- The opening bracket, where brackets nest. -/
  opening : Option UInt8
  closing : UInt8
  interpolates : Bool

def interpolation (g : Grammar) : Read Node := do
  let opening ← token "#\x7b"
  let resume := (← get).resume
  modify fun s => { s with resume := none }
  let body ← g.statements
  skipTerminators
  let closing ← token "\x7d"
  modify fun s => { s with resume }
  return branch "interpolation" (opening :: body ++ [closing])

/-- A variable interpolated without braces. -/
def shortInterpolation : Read (Option Node) := do
  let named (b : UInt8) : Bool := isLower b || isUpper b || b == 95
  let simple ← do
    if ← seesAt 1 '$' then pure (named (← peekAt 2))
    else if ← seesAt 1 '@' then
      if ← seesAt 2 '@' then pure (named (← peekAt 3)) else pure (named (← peekAt 2))
    else pure false
  if !simple then return none
  let hash ← token "#"
  return some (branch "interpolation" [hash, ← sigilVariable])

def contentFrom (kind : String) (start : Nat) : Read (List Node) := do
  if start == (← place) then return [] else return [← leaf kind start]

/-- The pieces of a literal's text up to the closing delimiter, which is not taken. -/
def pieces (g : Grammar) (fence : Fence) : Read (List Node) := do
  iterate (([] : List Node), ← place, 0) fun (acc, start, depth) => do
    if ← atEnd then stuck
    let b ← peek
    if b == 92 then
      advance 2
      return .inl (acc, start, depth)
    if b == fence.closing && depth == 0 then
      return .inr (acc ++ (← contentFrom "string_content" start))
    if b == fence.closing then
      advance 1
      return .inl (acc, start, depth - 1)
    if some b == fence.opening then
      advance 1
      return .inl (acc, start, depth + 1)
    if fence.interpolates && isByte b '#' then
      let before ← contentFrom "string_content" start
      if ← seesAt 1 '\x7b' then
        let n ← interpolation g
        return .inl (acc ++ before ++ [n], ← place, depth)
      if let some n ← shortInterpolation then
        return .inl (acc ++ before ++ [n], ← place, depth)
    advance 1
    return .inl (acc, start, depth)

/-- A delimiter of `width` bytes, as a token written `text`. -/
def delimiter (text : String) (width : Nat) : Read Node := do
  let start ← place
  advance width
  leafOf text false start (← place)

/-- A literal whose opening takes `width` bytes. -/
def fenced (g : Grammar) (kind mark : String) (width : Nat) (fence : Fence) : Read Node := do
  let opening ← delimiter mark width
  let inner ← pieces g fence
  let closing ← delimiter mark 1
  return branch kind (opening :: inner ++ [closing])

def skipFlags : Read Unit := repeatWhile do
  if isLower (← peek) then
    advance 1
    return true
  return false

/-- The closing delimiter's last byte takes in the flags behind it. -/
def regexOf (g : Grammar) (width : Nat) (fence : Fence) : Read Node := do
  let opening ← delimiter "/" width
  let inner ← pieces g fence
  let start ← place
  advance 1
  skipFlags
  let closing ← leafOf "/" false start (← place)
  return branch "regex" (opening :: inner ++ [closing])

def closingOf (b : UInt8) : Option UInt8 :=
  if b == 40 then some 41
  else if b == 91 then some 93
  else if b == 123 then some 125
  else if b == 60 then some 62
  else none

def fenceAt (k : Nat) (interpolates : Bool) : Read Fence := do
  let b ← peekAt k
  match closingOf b with
  | some c => return ⟨some b, c, interpolates⟩
  | none => return ⟨none, b, interpolates⟩

/-- A byte that may open a literal behind `%` and its letter. -/
def isDelimiter (b : UInt8) : Bool := isAscii b && 32 < b && b != 127 && !isPlainWord b

/-- A percent literal starts here; `spaced` is said of places where `%` may be an operator too. -/
def seesPercent (spaced : Bool) : Read Bool := do
  if !(← sees '%') then return false
  let b ← peekAt 1
  if "wWiIqQrsx".toList.any (isByte b) then return isDelimiter (← peekAt 2)
  return isDelimiter b && !(spaced && isByte b '=')

def percent (g : Grammar) : Read Node := do
  if !(← seesPercent false) then stuck
  let b ← peekAt 1
  let lettered (interpolates : Bool) (kind mark : String) : Read Node := do
    fenced g kind mark 3 (← fenceAt 2 interpolates)
  if isByte b 'w' then lettered false "string_array" "%w("
  else if isByte b 'W' then lettered true "string_array" "%w("
  else if isByte b 'i' then lettered false "symbol_array" "%i("
  else if isByte b 'I' then lettered true "symbol_array" "%i("
  else if isByte b 'q' then lettered false "string" "\""
  else if isByte b 'Q' then lettered true "string" "\""
  else if isByte b 's' then lettered false "delimited_symbol" ":\""
  else if isByte b 'x' then lettered true "subshell" "`"
  else if isByte b 'r' then regexOf g 3 (← fenceAt 2 true)
  else fenced g "string" "\"" 2 (← fenceAt 1 true)

def seesQuote : Read Bool := return (← sees '"') || (← sees '\'')

def quotedString (g : Grammar) : Read Node := do
  let b ← peek
  if isByte b '"' then fenced g "string" "\"" 1 ⟨none, b, true⟩
  else if isByte b '\'' then fenced g "string" "'" 1 ⟨none, b, false⟩
  else stuck

/-- A string, with the strings written right behind it. -/
def string (g : Grammar) : Read Node := do
  let first ← quotedString g
  let parts ← iterate [first] fun acc => do
    let s ← get
    skipInline
    if ← seesQuote then return .inl (acc ++ [← quotedString g])
    set s
    return .inr acc
  match parts with
  | [n] => return n
  | ns => return branch "chained_string" ns

def character : Read Node := do
  let start ← place
  advance 1
  if ← sees '\\' then
    advance 2
    if ← sees '-' then advance 2
    moveTo (← wordEnd (← place))
  else if isAscii (← peek) then advance 1
  else
    let w ← wordCharAt (← place)
    advance (max w 1)
  leaf "character" start

/-- A question mark that starts a character: one character stands alone behind it. -/
def seesCharacter : Read Bool := do
  if !(← sees '?') then return false
  let b ← peekAt 1
  if isBlank b || isNewline b || b == 0 then return false
  if b == 92 then return true
  let i := (← place) + 1
  let w ← wordCharAt i
  return (← wordCharAt (i + max w 1)) == 0

def symbol (g : Grammar) : Read Node := do
  let start ← place
  let b ← peekAt 1
  if isByte b '"' then fenced g "delimited_symbol" ":\"" 2 ⟨none, b, true⟩
  else if isByte b '\'' then fenced g "delimited_symbol" ":\"" 2 ⟨none, b, false⟩
  else
    advance 1
    if isByte b '@' || isByte b '$' then
      let _ ← sigilVariable
    else if let some t ← firstSeen operatorNames then
      advance t.utf8ByteSize
    else
      let i ← place
      let stop ← nameEnd i
      if stop == i || isDigit b then stuck
      let c ← byteAt stop
      let d ← byteAt (stop + 1)
      let writer := isByte c '=' && !isByte d '=' && !isByte d '~' && !isByte d '>'
      moveTo (if writer then stop + 1 else stop)
    leaf "simple_symbol" start

/-- The word that ends a heredoc, and how its lines are taken. -/
structure Tag where
  word : List UInt8
  interpolates : Bool
  indented : Bool
  stop : Nat

/-- The heredoc opening in front, if there is one. -/
def tag? : Read (Option Tag) := do
  if !(← seesText "<<") then return none
  let i := (← place) + 2
  let mark ← byteAt i
  let indented := isByte mark '~' || isByte mark '-'
  let i := if indented then i + 1 else i
  let b ← byteAt i
  let bytes (start stop : Nat) : Read (List UInt8) :=
    return ((← read).source.extract start stop).data.toList
  if isByte b '"' || isByte b '\'' || isByte b '`' then
    let line ← lineEnd i
    let rest ← bytes (i + 1) line
    let word := rest.takeWhile (· != b)
    if word.length == rest.length then return none
    return some ⟨word, !isByte b '\'', indented, i + word.length + 2⟩
  let stop ← wordEnd i
  if stop == i then return none
  return some ⟨← bytes i stop, true, indented, stop⟩

/-- The tag's word stands at `i` and ends its line. -/
def endsHeredoc (tag : Tag) (i : Nat) : Read Bool := do
  let stop := i + tag.word.length
  let bytes := ((← read).source.extract i stop).data.toList
  if bytes != tag.word then return false
  let rec go : Nat → Nat → Read Bool
    | 0, _ => pure true
    | n + 1, k => do
      let b ← byteAt k
      if b == 32 || b == 9 then go n (k + 1) else return isNewline b || b == 13 || b == 0
  go ((← read).source.size - stop) stop

/-- Moves over the blanks that start a line; whether the end word may follow. -/
def lineStart (tag : Tag) : Read Bool := do
  let start ← place
  repeatWhile do
    let b ← peek
    if b == 32 || b == 9 then
      advance 1
      return true
    return false
  return tag.indented || start == (← place)

/-- Reads the body that starts behind the newline at `start`. -/
def heredocBody (g : Grammar) (tag : Tag) (start : Nat) : Read Node := do
  moveTo start
  let opening ← leafOf "heredoc_body_start" false start start
  let size := (← read).source.size
  if start < size then advance 1
  let first ← place
  let fresh ← lineStart tag
  let inner ← iterate (([] : List Node), first, fresh) fun (acc, from_, fresh) => do
    if ← atEnd then return .inr (acc ++ (← contentFrom "heredoc_content" from_))
    if fresh then
      if ← endsHeredoc tag (← place) then
        let content ← contentFrom "heredoc_content" from_
        let i ← place
        advance tag.word.length
        return .inr (acc ++ content ++ [← leaf "heredoc_end" i])
    let b ← peek
    if isNewline b then
      advance 1
      let fresh ← lineStart tag
      return .inl (acc, from_, fresh)
    if tag.interpolates && b == 92 then
      advance 2
      return .inl (acc, from_, isNewline (← byteAt ((← place) - 1)) && (← lineStart tag))
    if tag.interpolates && isByte b '#' then
      let before ← contentFrom "heredoc_content" from_
      if ← seesAt 1 '\x7b' then
        let n ← interpolation g
        return .inl (acc ++ before ++ [n], ← place, false)
      if let some n ← shortInterpolation then
        return .inl (acc ++ before ++ [n], ← place, false)
    advance 1
    return .inl (acc, from_, false)
  return branch "heredoc_body" (opening :: inner)

/-- A heredoc's opening. Its body is read now and set aside. -/
def heredoc (g : Grammar) : Read Node := do
  match ← tag? with
  | none => stuck
  | some tag =>
    let start ← place
    moveTo tag.stop
    let opening ← leaf "heredoc_beginning" start
    let line ← lineEnd tag.stop
    let body ← heredocBody g tag ((← get).resume.getD line)
    addExtra body
    modify fun s => { s with resume := some s.pos }
    moveTo tag.stop
    return opening

end TimeLint.Ruby
