import TimeLint.Offense.Diagnostic
import TimeLint.Syntax.Fault

/-!
Checking and correcting sources, with any parser.
-/

namespace TimeLint

abbrev Parser := Bytes → Node

def checkSource (parse : Parser) (source : Bytes) : CheckResult := checkTree source (parse source)

/-- A check of a source that must be free of faults. -/
def checkStrict (parse : Parser) (source : Bytes) : Except SyntaxFault CheckResult :=
  match (parse source).strict with
  | .error f => .error f
  | .ok tree => .ok (checkTree source tree)

/-- The source with every correctable offense corrected. -/
def correct (parse : Parser) (source : Bytes) : Except Edit.Refusal Bytes :=
  Edit.apply source (checkSource parse source).edits

/-- The text with every correctable offense corrected. -/
def correctText (parse : Parser) (source : String) : Except Edit.TextFault String :=
  Edit.applyText source (checkSource parse (Bytes.ofString source)).edits

end TimeLint
