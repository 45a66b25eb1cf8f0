import TimeLint.Offense.Diagnostic
import TimeLint.Offense.Vocabulary
import TimeLint.Text.Quoted

/-!
Reports on files, as lines for a reader and as records for a program. A record is one line that holds
its fields in the order of their names. Reports are written one diagnostic after another, up to the first
record with a number that does not fit in sixty-four bits; nothing of that one is written.
-/

namespace TimeLint

structure FileReport where
  path : String
  diagnostics : List Diagnostic := []
  corrected : Int := 0
deriving Repr, DecidableEq, Inhabited

namespace Report

/-- A diagnostic with the path of its file. -/
structure Record where
  path : String
  diagnostic : Diagnostic
deriving Repr, DecidableEq, Inhabited

def records (reports : List FileReport) : List Record :=
  reports.flatMap fun r => r.diagnostics.map fun d => ⟨r.path, d⟩

namespace Record

/-- Path, line, column, rule and message. -/
def text (r : Record) : String :=
  let line := toString r.diagnostic.range.startLine
  let column := toString r.diagnostic.range.startColumn
  let mark := if r.diagnostic.correctable then "[Correctable] " else ""
  r.path ++ ":" ++ line ++ ":" ++ column ++ ": " ++ mark ++ r.diagnostic.rule ++ ": " ++ r.diagnostic.message

end Record

/-- A value of a record's field. -/
inductive Scalar where
  | bool (value : Bool)
  | int (value : Int)
  | text (value : String)
deriving Repr, DecidableEq, Inhabited

/-- Quotes, backslashes and control characters are escaped, with a letter where there is one. -/
def escapeChar (c : Char) : List Char :=
  if c == '"' || c == '\\' then ['\\', c]
  else if c == '\x08' then ['\\', 'b']
  else if c == '\t' then ['\\', 't']
  else if c == '\n' then ['\\', 'n']
  else if c == '\x0c' then ['\\', 'f']
  else if c == '\r' then ['\\', 'r']
  else if c.toNat < 32 then '\\' :: 'u' :: (Text.hex 4 c.toNat).toList
  else [c]

def quote (s : String) : List Char := '"' :: s.toList.flatMap escapeChar ++ ['"']

namespace Scalar

def chars : Scalar → List Char
  | bool true => "true".toList
  | bool false => "false".toList
  | int n => (toString n).toList
  | text s => quote s

/-- A number is written if it fits in sixty-four bits, with a sign or without. -/
def fits : Scalar → Bool
  | int n => -Int.pow 2 63 ≤ n && n < Int.pow 2 64
  | _ => true

end Scalar

namespace Record

def fields (r : Record) : List (String × Scalar) :=
  let d := r.diagnostic
  [("correctable", .bool d.correctable),
   ("end_col", .int d.range.endColumn),
   ("end_line", .int d.range.endLine),
   ("kind", .text d.kind.code),
   ("message", .text d.message),
   ("path", .text r.path),
   ("rule", .text d.rule),
   ("schema_version", .int Offense.schemaVersion),
   ("start_col", .int d.range.startColumn),
   ("start_line", .int d.range.startLine)]

def fits (r : Record) : Bool := r.fields.all (·.2.fits)

def fieldChars (field : String × Scalar) : List Char := quote field.1 ++ ':' :: field.2.chars

/-- The record as an object. -/
def object (r : Record) : String :=
  String.ofList ('\x7b' :: List.intercalate [','] (r.fields.map fieldChars) ++ ['\x7d'])

/-- There is no object for a record with a number that does not fit. -/
def object? (r : Record) : Option String := if r.fits then some r.object else none

end Record

inductive Format where
  | text
  | jsonl
deriving Repr, DecidableEq, Inhabited

namespace Format

def all : List Format := [text, jsonl]

def code : Format → String
  | text => "text"
  | jsonl => "jsonl"

/-- What is written for a record, if it can be. -/
def form : Format → Record → Option String
  | text, r => some r.text
  | jsonl, r => r.object?

end Format

/-- What has been written so far, and how many records. -/
structure Sink where
  output : String := ""
  count : Nat := 0
deriving Repr, DecidableEq, Inhabited

namespace Sink

def put (s : Sink) (text : String) : Sink := { s with output := s.output ++ text }

/-- A record is written with a newline behind it. One that has no form stops the writing where it is. -/
def add (format : Format) (s : Sink) (r : Record) : Except Sink Sink :=
  match format.form r with
  | none => .error s
  | some text =>
    let written := (s.put text).put "\n"
    .ok { written with count := written.count + 1 }

def addReport (format : Format) (s : Sink) (report : FileReport) : Except Sink Sink :=
  report.diagnostics.foldlM (fun s d => s.add format ⟨report.path, d⟩) s

end Sink

/-- What was written, and how many records, unless one could not be. -/
structure Written where
  output : String
  count : Option Nat
deriving Repr, DecidableEq, Inhabited

def write (format : Format) (reports : List FileReport) : Written :=
  match reports.foldlM (Sink.addReport format) {} with
  | .error s => ⟨s.output, none⟩
  | .ok s => ⟨s.output, some s.count⟩

end Report

end TimeLint
