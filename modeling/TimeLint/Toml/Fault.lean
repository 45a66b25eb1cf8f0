import TimeLint.Text.Quoted

/-!
Faults in a settings file. A fault keeps what was still unread when the reader gave up, from which the
line and column follow.
-/

namespace TimeLint.Toml

abbrev Key := List String

def Key.text : Key → String
  | [k] => "(" ++ Text.quoted k ++ ",)"
  | ks => "(" ++ ", ".intercalate (ks.map Text.quoted) ++ ")"

inductive Problem where
  | invalidValue
  | invalidStatement
  | expectedLineEnd
  | expectedTableEnd
  | expectedListEnd
  | expectedEquals
  | expectedDelimiter (delimiter : String)
  | keyStart
  | unclosedArray
  | unclosedTable
  | unterminatedString
  | overwritten
  | declaredTwice (key : Key)
  | redefined (key : Key)
  | frozen (key : Key)
  | duplicate (name : String)
  | date
  | hexDigits
  | notScalar
  | escape
  | illegal (c : Char)
  | unexpected (c : Char)
  | tooLong (digits : Nat)
deriving Repr, DecidableEq, Inhabited

def Problem.message : Problem → String
  | invalidValue => "Invalid value"
  | invalidStatement => "Invalid statement"
  | expectedLineEnd => "Expected newline or end of document after a statement"
  | expectedTableEnd => "Expected ']' at the end of a table declaration"
  | expectedListEnd => "Expected ']]' at the end of an array declaration"
  | expectedEquals => "Expected '=' after a key in a key/value pair"
  | expectedDelimiter d => "Expected " ++ Text.quoted d
  | keyStart => "Invalid initial character for a key part"
  | unclosedArray => "Unclosed array"
  | unclosedTable => "Unclosed inline table"
  | unterminatedString => "Unterminated string"
  | overwritten => "Cannot overwrite a value"
  | declaredTwice key => "Cannot declare " ++ key.text ++ " twice"
  | redefined key => "Cannot redefine namespace " ++ key.text
  | frozen key => "Cannot mutate immutable namespace " ++ key.text
  | duplicate name => "Duplicate inline table key " ++ Text.quoted name
  | date => "Invalid date or datetime"
  | hexDigits => "Invalid hex value"
  | notScalar => "Escaped character is not a Unicode scalar value"
  | escape => "Unescaped '\\' in a string"
  | illegal c => "Illegal character " ++ Text.quoted (String.singleton c)
  | unexpected c => "Found invalid character " ++ Text.quoted (String.singleton c)
  | tooLong digits =>
    "Exceeds the limit (4300 digits) for integer string conversion: value has " ++ toString digits
      ++ " digits; use sys.set_int_max_str_digits() to increase the limit"

structure Fault where
  problem : Problem
  unread : List Char
deriving Repr, DecidableEq, Inhabited

namespace Fault

/-- Where the reader gave up, in lines and columns that count from one. -/
def place (source : List Char) (f : Fault) : String :=
  if f.unread.isEmpty then "end of document"
  else
    let before := source.take (source.length - f.unread.length)
    let line := before.count '\n' + 1
    let column := (before.reverse.takeWhile (· != '\n')).length + 1
    s!"line {line}, column {column}"

def message (source : List Char) (f : Fault) : String :=
  f.problem.message ++ " (at " ++ f.place source ++ ")"

end Fault

/-- A reader takes a value off the front of the unread text. -/
abbrev Reader (α : Type) := List Char → Except Fault (α × List Char)

def fault {α : Type} (problem : Problem) (unread : List Char) : Except Fault α := .error ⟨problem, unread⟩

end TimeLint.Toml
