import TimeLint.Data.Value
import TimeLint.Toml.Fault

/-!
Scalars of a settings file: strings in their four forms, numbers, dates and times. Tables of the format:
which control characters a text may hold, the short escapes, and the digits of each base.
-/

namespace TimeLint.Toml

open Data (Value nearestFloat)

def isControl (c : Char) : Bool := c.toNat < 32 || c.toNat == 127

/-- Characters that may not stand in a comment or in a string on one line. -/
def isIllegal (c : Char) : Bool := isControl c && c != '\t'

/-- Characters that may not stand in a string over several lines. -/
def isIllegalInLines (c : Char) : Bool := isControl c && c != '\t' && c != '\n'

def isSpace (c : Char) : Bool := c == ' ' || c == '\t'

def isSpaceOrNewline (c : Char) : Bool := isSpace c || c == '\n'

def isHexDigit (c : Char) : Bool := c.isDigit || ('a' ≤ c && c ≤ 'f') || ('A' ≤ c && c ≤ 'F')

def hexValue (c : Char) : Nat :=
  if c.isDigit then c.toNat - 48 else if c.toNat < 97 then c.toNat - 55 else c.toNat - 87

/-- What stands before the first `delimiter`, and the text from there. -/
def splitAt? (delimiter : List Char) : List Char → Option (List Char × List Char)
  | [] => none
  | c :: rest =>
    if delimiter.isPrefixOf (c :: rest) then some ([], c :: rest)
    else (splitAt? delimiter rest).map fun (before, after) => (c :: before, after)

/-- Refuses the first illegal character of `body`, which `after` follows. -/
def refuse (illegal : Char → Bool) (body after : List Char) : Except Fault Unit :=
  match body.dropWhile fun c => !illegal c with
  | [] => .ok ()
  | c :: rest => fault (.unexpected c) (c :: rest ++ after)

/-- A comment ends before the next newline. -/
def skipComment : List Char → Except Fault (List Char)
  | '#' :: rest => do
    let (body, after) := (splitAt? ['\n'] rest).getD (rest, [])
    refuse isIllegal body after
    return after
  | cs => .ok cs

/-- A string in single quotes, with no escapes. -/
def literalBody (delimiter : String) (illegal : Char → Bool) : Reader String := fun cs =>
  match splitAt? delimiter.toList cs with
  | none => fault (.expectedDelimiter delimiter) []
  | some (body, after) => do
    refuse illegal body after
    return (String.ofList body, after.drop delimiter.length)

def literalString : Reader String := literalBody "'" isIllegal

/-- A character given by `width` hexadecimal digits. -/
def hexChar (width : Nat) : Reader Char := fun cs =>
  let digits := cs.take width
  if digits.length != width || !digits.all isHexDigit then fault .hexDigits cs
  else
    let n := digits.foldl (fun n c => n * 16 + hexValue c) 0
    if n.isValidChar then .ok (Char.ofNat n, cs.drop width) else fault .notScalar (cs.drop width)

def shortEscapes : List (Char × Char) :=
  [('b', '\x08'), ('t', '\t'), ('n', '\n'), ('f', '\x0c'), ('r', '\r'), ('"', '"'), ('\\', '\\')]

/-- What follows a backslash. In a string over several lines a backslash at the end of a line takes the
blanks after it away. -/
def escape (multiline : Bool) : Reader (List Char) := fun cs =>
  match cs with
  | [] => fault .escape []
  | c :: rest =>
    if multiline && c == '\n' then .ok ([], rest.dropWhile isSpaceOrNewline)
    else if multiline && isSpace c then
      match rest.dropWhile isSpace with
      | [] => .ok ([], [])
      | '\n' :: after => .ok ([], after.dropWhile isSpaceOrNewline)
      | after => fault .escape after
    else if c == 'u' then (hexChar 4 rest).map fun (x, after) => ([x], after)
    else if c == 'U' then (hexChar 8 rest).map fun (x, after) => ([x], after)
    else
      match shortEscapes.lookup c with
      | some x => .ok ([x], rest)
      | none => fault .escape rest

/-- The rest of a string in double quotes; every step takes at least one character. -/
def basicBody (multiline : Bool) : Nat → Reader (List Char)
  | 0, cs => fault .unterminatedString cs
  | fuel + 1, cs =>
    match cs with
    | [] => fault .unterminatedString []
    | '"' :: rest =>
      if !multiline then .ok ([], rest)
      else if ['"', '"'].isPrefixOf rest then .ok ([], rest.drop 2)
      else (basicBody multiline fuel rest).map fun (body, after) => ('"' :: body, after)
    | '\\' :: rest => do
      let (front, rest) ← escape multiline rest
      let (body, after) ← basicBody multiline fuel rest
      return (front ++ body, after)
    | c :: rest =>
      if (if multiline then isIllegalInLines c else isIllegal c) then fault (.illegal c) cs
      else (basicBody multiline fuel rest).map fun (body, after) => (c :: body, after)

def basicString (multiline : Bool) : Reader String := fun cs =>
  (basicBody multiline (cs.length + 1) cs).map fun (body, after) => (String.ofList body, after)

/-- Up to two quotes more belong to the string when it closes with four or five of them. -/
def extraQuotes (quote : Char) (body : String) (cs : List Char) : String × List Char :=
  let extra := (cs.take 2).takeWhile (· == quote)
  (body ++ String.ofList extra, cs.drop extra.length)

def dropNewline : List Char → List Char
  | '\n' :: rest => rest
  | cs => cs

/-- A string value at its opening quote. -/
def stringValue? : List Char → Option (Except Fault (String × List Char))
  | '"' :: '"' :: '"' :: rest =>
    some ((basicString true (dropNewline rest)).map fun (s, after) => extraQuotes '"' s after)
  | '"' :: rest => some (basicString false rest)
  | '\'' :: '\'' :: '\'' :: rest =>
    some ((literalBody "'''" isIllegalInLines (dropNewline rest)).map fun (s, after) => extraQuotes '\'' s after)
  | '\'' :: rest => some (literalString rest)
  | _ => none

/-- Digits, with underscores one by one between them. -/
def digitRun (isDigit : Char → Bool) : List Char → List Char × List Char
  | c :: rest =>
    if isDigit c then
      let (more, after) := continued rest
      (c :: more, after)
    else ([], c :: rest)
  | [] => ([], [])
where
  continued : List Char → List Char × List Char
    | '_' :: c :: rest =>
      if isDigit c then
        let (more, after) := continued rest
        (c :: more, after)
      else ([], '_' :: c :: rest)
    | c :: rest =>
      if isDigit c then
        let (more, after) := continued rest
        (c :: more, after)
      else ([], c :: rest)
    | [] => ([], [])

def decimal (digits : List Char) : Nat := digits.foldl (fun n c => n * 10 + (c.toNat - 48)) 0

/-- Two digits whose number lies in a range. -/
def twoDigits? (lo hi : Nat) : List Char → Option (Nat × List Char)
  | a :: b :: rest =>
    let n := decimal [a, b]
    if a.isDigit && b.isDigit && lo ≤ n && n ≤ hi then some (n, rest) else none
  | _ => none

def mark? (isMark : Char → Bool) : List Char → Option (List Char)
  | c :: rest => if isMark c then some rest else none
  | [] => none

/-- Hours, minutes and seconds, with a fraction if digits follow a point. -/
def time? (cs : List Char) : Option (List Char) := do
  let (_, cs) ← twoDigits? 0 23 cs
  let (_, cs) ← twoDigits? 0 59 (← mark? (· == ':') cs)
  let (_, cs) ← twoDigits? 0 59 (← mark? (· == ':') cs)
  match cs with
  | '.' :: c :: rest => return if c.isDigit then rest.dropWhile Char.isDigit else cs
  | _ => return cs

/-- The offset of a time from universal time, which may be left out. -/
def offset (cs : List Char) : List Char :=
  let signed? : Option (List Char) := do
    let (_, cs) ← twoDigits? 0 23 (← mark? (fun c => c == '+' || c == '-') cs)
    let (_, cs) ← twoDigits? 0 59 (← mark? (· == ':') cs)
    return cs
  match cs with
  | 'Z' :: rest => rest
  | 'z' :: rest => rest
  | _ => signed?.getD cs

def isLeap (year : Nat) : Bool := year % 4 == 0 && (year % 100 != 0 || year % 400 == 0)

def daysIn (year month : Nat) : Nat :=
  if month == 2 then (if isLeap year then 29 else 28)
  else if month == 4 || month == 6 || month == 9 || month == 11 then 30
  else 31

/-- A date, with a time after it or not: whether the calendar has it, and the rest. -/
def dateTime? (cs : List Char) : Option (Bool × List Char) := do
  let year := cs.take 4
  if year.length != 4 || !year.all Char.isDigit then none
  else
    let (month, rest) ← twoDigits? 1 12 (← mark? (· == '-') (cs.drop 4))
    let (day, rest) ← twoDigits? 1 31 (← mark? (· == '-') rest)
    let timed? := (mark? (fun c => c == 'T' || c == 't' || c == ' ') rest).bind time?
    let valid := 1 ≤ decimal year && day ≤ daysIn (decimal year) month
    return (valid, (timed?.map offset).getD rest)

/-- Longer integers in base ten are not read. -/
def digitLimit : Nat := 4300

def radixNumber? : List Char → Option (Nat × List Char)
  | '0' :: c :: rest =>
    let run (radix : Nat) (isDigit : Char → Bool) : Option (Nat × List Char) :=
      match digitRun isDigit rest with
      | ([], _) => none
      | (digits, after) => some (digits.foldl (fun n d => n * radix + hexValue d) 0, after)
    if c == 'x' then run 16 isHexDigit
    else if c == 'b' then run 2 fun d => d == '0' || d == '1'
    else if c == 'o' then run 8 fun d => '0' ≤ d && d ≤ '7'
    else none
  | _ => none

/-- A sign in front, if there is one: whether it is a minus. -/
def sign : List Char → Bool × List Char
  | '-' :: rest => (true, rest)
  | '+' :: rest => (false, rest)
  | cs => (false, cs)

/-- Digits after a point, or none. -/
def fraction : List Char → List Char × List Char
  | '.' :: rest =>
    match digitRun Char.isDigit rest with
    | ([], _) => ([], '.' :: rest)
    | (digits, after) => (digits, after)
  | cs => ([], cs)

/-- A power of ten after a letter, or none. -/
def exponent? : List Char → Option (Int × List Char)
  | c :: rest =>
    if c == 'e' || c == 'E' then
      let (negative, unsigned) := sign rest
      match digitRun Char.isDigit unsigned with
      | ([], _) => none
      | (digits, after) => some (if negative then -(decimal digits : Int) else decimal digits, after)
    else none
  | [] => none

def whole? : List Char → Option (List Char × List Char)
  | '0' :: rest => some (['0'], rest)
  | c :: rest => if c.isDigit then some (digitRun Char.isDigit (c :: rest)) else none
  | [] => none

def decimalNumber? (cs : List Char) : Option (Except Fault (Value × List Char)) := do
  let (negative, unsigned) := sign cs
  let (digits, rest) ← whole? unsigned
  let (decimals, rest) := fraction rest
  match exponent? rest with
  | some (power, after) =>
    return .ok (.float (nearestFloat negative (decimal (digits ++ decimals)) (power - decimals.length)), after)
  | none =>
    if !decimals.isEmpty then
      return .ok (.float (nearestFloat negative (decimal (digits ++ decimals)) (-decimals.length)), rest)
    else if digitLimit < digits.length then return fault (.tooLong digits.length) cs
    else return .ok (.int (if negative then -(decimal digits : Int) else decimal digits), rest)

def wordValues : List (String × Value) :=
  [("true", .bool true), ("false", .bool false)]

def specialFloats : List (String × Value) :=
  let infinity : Float := 1 / 0
  let nan : Float := 0 / 0
  [("inf", .float infinity), ("nan", .float nan), ("-inf", .float (-infinity)), ("+inf", .float infinity),
   ("-nan", .float nan), ("+nan", .float nan)]

/-- The value of the first word that the text begins with. -/
def wordValue? (words : List (String × Value)) (cs : List Char) : Option (Value × List Char) :=
  (words.find? fun (word, _) => word.toList.isPrefixOf cs).map fun (word, v) => (v, cs.drop word.length)

/-- A date, a time or a number. -/
def plainValue : Reader Value := fun cs =>
  let writtenTo (rest : List Char) : Value :=
    .moment (String.ofList (cs.take (cs.length - rest.length)))
  match dateTime? cs with
  | some (true, rest) => .ok (writtenTo rest, rest)
  | some (false, _) => fault .date cs
  | none =>
    match time? cs with
    | some rest => .ok (writtenTo rest, rest)
    | none =>
      match radixNumber? cs with
      | some (n, rest) => .ok (.int n, rest)
      | none =>
        match decimalNumber? cs with
        | some result => result
        | none =>
          match wordValue? specialFloats cs with
          | some found => .ok found
          | none => fault .invalidValue cs

end TimeLint.Toml
