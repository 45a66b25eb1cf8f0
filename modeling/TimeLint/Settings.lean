import TimeLint.Data.Issue
import TimeLint.Report.Record
import TimeLint.Scan
import TimeLint.Toml.Document

/-!
Settings of a run, kept in a file of the checked directory. Without the file every setting has its
default. A pattern list may be given as a single pattern. Settings that are not known are refused.
-/

namespace TimeLint

structure Settings extends Selection where
  format : Report.Format := .text
deriving Repr, DecidableEq, Inhabited

namespace Settings

open Data

def fileName : String := "timecop.toml"

def speaker : String := "rules.config"

/-- What the settings are called in messages. -/
def recordName : String := "TimecopConfig"

def patterns : Value → Checked (List String)
  | .null => .ok []
  | .string s => .ok [s]
  | v => v.asList Value.asString

def formats : Value → Checked Report.Format :=
  Value.asOneOf (.literal (Report.Format.all.map (·.code))) (Report.Format.all.map fun f => (f.code, f))

def names : List String := ["include", "exclude", "nested_gitignore", "format"]

def ofValue (v : Value) : Checked Settings := do
  let rows ← v.asTable recordName
  (Checked.both (optional rows "include" [] patterns)
    (.both (optional rows "exclude" [] patterns)
      (.both (optional rows "nested_gitignore" false Value.asBool)
        (.both (optional rows "format" .text formats) (only rows names))))).map
    fun (included, excluded, nested, format, _) => { included, excluded, nested, format }

/-- Why settings cannot be read. The file is no text, it holds a number with too many digits, it is not
well formed, or it says what settings may not say. -/
inductive Fault where
  | notText
  | tooLong (digits : Nat)
  | malformed (path : Path) (text : List Char) (fault : Toml.Fault)
  | invalid (path : Path) (issues : List Issue)
deriving Repr, DecidableEq, Inhabited

/-- How many issues there are. -/
def countText (issues : List Issue) : String :=
  match issues with
  | [_] => "1 validation error"
  | _ => toString issues.length ++ " validation errors"

def issueText (i : Issue) : String :=
  "\n" ++ ".".intercalate (i.location.map Step.text) ++ "\n  " ++ i.problem.message
    ++ " [type=" ++ i.problem.code ++ "]"

namespace Fault

/-- The first line of the message. -/
def headline : Fault → String
  | notText => "not a text"
  | tooLong digits => (Toml.Problem.tooLong digits).message
  | malformed path text fault => "Invalid TOML in " ++ path.text ++ ": " ++ fault.message text
  | invalid path issues =>
    "Invalid config in " ++ path.text ++ ": " ++ countText issues ++ " for " ++ recordName

def message (f : Fault) : String :=
  match f with
  | invalid _ issues => f.headline ++ String.join (issues.map issueText)
  | _ => f.headline

end Fault

def parse (path : Path) (content : Bytes) : Except Fault Settings :=
  match content.decode with
  | none => .error .notText
  | some s =>
    let text := Toml.unifyNewlines s.toList
    match Toml.parse text with
    | .error ⟨.tooLong digits, _⟩ => .error (.tooLong digits)
    | .error fault => .error (.malformed path text fault)
    | .ok rows => (ofValue (.table rows)).mapError (.invalid path)

/-- The settings of a directory, with what is to be logged about them. -/
def load (d : Disk) (root : Path) : Except Fault (Settings × List Log.Event) := do
  let path := root ++ [fileName]
  match d.isFile path, d.read path with
  | true, .ok content => return (← parse path content, [])
  | _, _ =>
    return ({}, [⟨.debug, speaker, "No " ++ fileName ++ " in " ++ root.text ++ ", using defaults"⟩])

end Settings

end TimeLint
